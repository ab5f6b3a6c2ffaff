import Mathlib.Data.Nat.Bitwise

/-!
# Bit fields of words

A field is a run of bits of a word. Assigning to a field changes its bits and no others, so that
fields that do not overlap are independent of each other.
-/

namespace Cthulhu.Lib

variable {lo width lo' width' v w i n : ℕ}

/-- The field of `width` bits from bit `lo` on. -/
def field (lo width w : ℕ) : ℕ := w / 2 ^ lo % 2 ^ width

/-- The word with a field assigned; what does not fit in the field is cut off. -/
def setField (lo width v w : ℕ) : ℕ := 2 ^ lo * (2 ^ width * (w / 2 ^ (lo + width)) + v % 2 ^ width) + w % 2 ^ lo

/-- The bits of a field. -/
theorem testBit_field : (field lo width w).testBit i = (decide (i < width) && w.testBit (i + lo)) := by
  rw [field, Nat.testBit_mod_two_pow, Nat.testBit_div_two_pow]

/-- The bits of a word with a field assigned. -/
theorem testBit_setField : (setField lo width v w).testBit i =
    if i < lo then w.testBit i else if i < lo + width then v.testBit (i - lo) else w.testBit i := by
  rw [setField, Nat.testBit_two_pow_mul_add _ (Nat.mod_lt w (Nat.two_pow_pos lo))]
  by_cases hlo : i < lo
  · simp only [hlo, if_true, Nat.testBit_mod_two_pow, decide_true, Bool.true_and]
  · rw [if_neg hlo, if_neg hlo, Nat.testBit_two_pow_mul_add _ (Nat.mod_lt v (Nat.two_pow_pos width))]
    by_cases hwidth : i < lo + width
    · have hin : i - lo < width := by omega
      simp only [hin, hwidth, if_true, Nat.testBit_mod_two_pow, decide_true, Bool.true_and]
    · have hout : ¬ i - lo < width := by omega
      have hplace : i - lo - width + (lo + width) = i := by omega
      rw [if_neg hout, if_neg hwidth, Nat.testBit_div_two_pow, hplace]

/-- A field is below the power of its width. -/
theorem field_lt : field lo width w < 2 ^ width := Nat.mod_lt _ (Nat.two_pow_pos width)

/-- Every field of zero is zero. -/
@[simp] theorem field_zero : field lo width 0 = 0 := by
  rw [field, Nat.zero_div, Nat.zero_mod]

/-- The field of a value moved up to its place. -/
theorem field_mul : field lo width (2 ^ lo * v) = v % 2 ^ width := by
  rw [field, Nat.mul_div_cancel_left _ (Nat.two_pow_pos lo)]

/-- A field reads what was assigned to it. -/
theorem field_setField : field lo width (setField lo width v w) = v % 2 ^ width := by
  apply Nat.eq_of_testBit_eq
  intro i
  rw [testBit_field, testBit_setField, Nat.testBit_mod_two_pow]
  by_cases hi : i < width
  · have hlow : ¬ i + lo < lo := by omega
    have hhigh : i + lo < lo + width := by omega
    rw [if_neg hlow, if_pos hhigh, Nat.add_sub_cancel]
  · simp only [hi, decide_false, Bool.false_and]

/-- Assigning to a field leaves the fields below and above it as they are. -/
theorem field_setField_of_apart (h : lo' + width' ≤ lo ∨ lo + width ≤ lo') :
    field lo' width' (setField lo width v w) = field lo' width' w := by
  apply Nat.eq_of_testBit_eq
  intro i
  rw [testBit_field, testBit_field, testBit_setField]
  by_cases hi : i < width'
  · rcases h with hbelow | habove
    · have hlow : i + lo' < lo := by omega
      rw [if_pos hlow]
    · have hlow : ¬ i + lo' < lo := by omega
      have hhigh : ¬ i + lo' < lo + width := by omega
      rw [if_neg hlow, if_neg hhigh]
  · simp only [hi, decide_false, Bool.false_and]

/-- A field is what is left of the word above and below it. -/
theorem field_split (lo width w : ℕ) : w = 2 ^ lo * (2 ^ width * (w / 2 ^ (lo + width)) + field lo width w) + w % 2 ^ lo := by
  have hlow := Nat.div_add_mod w (2 ^ lo)
  have hhigh := Nat.div_add_mod (w / 2 ^ lo) (2 ^ width)
  rw [Nat.div_div_eq_div_mul, ← Nat.pow_add] at hhigh
  rw [field, hhigh, hlow]

/-- Assigning to a field whose bits are clear adds the value at its place. -/
theorem setField_of_clear (h : field lo width w = 0) : setField lo width v w = w + 2 ^ lo * (v % 2 ^ width) := by
  have hsplit := field_split lo width w
  rw [h, Nat.add_zero] at hsplit
  rw [setField, Nat.mul_add]
  omega

/-- A word does not outgrow its size when a field inside it is assigned. -/
theorem setField_lt (hw : w < 2 ^ n) (hin : lo + width ≤ n) : setField lo width v w < 2 ^ n := by
  apply Nat.lt_pow_two_of_testBit
  intro i hi
  have hlow : ¬ i < lo := by omega
  have hhigh : ¬ i < lo + width := by omega
  rw [testBit_setField, if_neg hlow, if_neg hhigh]
  exact Nat.testBit_lt_two_pow (Nat.lt_of_lt_of_le hw (Nat.pow_le_pow_right (by decide) hi))

end Cthulhu.Lib
