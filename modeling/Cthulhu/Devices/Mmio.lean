import Cthulhu.Devices.Configuration
import Cthulhu.Lib.CInt

/-!
# Fields of memory-mapped registers

`RMWREG32` and `RMWREG64` make their mask in `int`, `RREG32` and `RREG64` make theirs in `unsigned long`, one bit too wide.
So a read sees the bit behind the field, and the mask of a write to 64 bits has no bits of its own from 32 on.
-/

namespace Cthulhu

open Lib

/-- `((1<<(width)) - 1) << (startbit)`. -/
def fieldMask (startbit width : ℕ) : Option ℤ := do
  let one ← intShl 1 width
  let low ← inInt (one - 1)
  intShl low startbit

/-- `RMWREG32` and `RMWREG64`: the word that is stored, given the one that is loaded. -/
def rmwreg (bits x startbit width val : ℕ) : Option ℕ := do
  let mask ← fieldMask startbit width
  let val ← unsignedShl bits val startbit
  some (x &&& toUnsigned bits (-mask - 1) ||| val)

/-- `RREG32` and `RREG64`, given the word that is loaded. -/
def rreg (x startbit width : ℕ) : Option ℕ := do
  let above ← unsignedShl 64 1 (startbit + width + 1)
  let below ← unsignedShl 64 1 startbit
  some (x &&& ((above - 1) &&& (2 ^ 64 - 1 - (below - 1))))

/-- What accesses to a field of a register are for: a read gives what was written, a write changes nothing else, and reads of
other fields do not see it. -/
def FieldLaws (bits x startbit width val : ℕ) : Prop :=
  ∃ y, rmwreg bits x startbit width val = some y ∧
    rreg y startbit width = some (2 ^ startbit * val) ∧
    (∀ i, i < startbit ∨ startbit + width ≤ i → y.testBit i = x.testBit i) ∧
    ∀ startbit' width', 1 ≤ width' → startbit' + width' ≤ bits →
      startbit' + width' ≤ startbit ∨ startbit + width ≤ startbit' →
      rreg y startbit' width' = rreg x startbit' width'

variable {bits x y s w v i : ℕ}

/-- A read of a field that ends before bit 63. -/
theorem rreg_eq (h : s + w + 1 < 64) : rreg x s w = some (rreg32 x s w) := by
  have habove : 2 ^ (s + w + 1) * 1 < 2 ^ 64 := by
    rw [Nat.mul_one]
    exact Nat.pow_lt_pow_right (by decide) h
  have hbelow : 2 ^ s * 1 < 2 ^ 64 := by
    rw [Nat.mul_one]
    exact Nat.pow_lt_pow_right (by decide) (by omega)
  rw [rreg, unsignedShl_of_lt h habove, unsignedShl_of_lt (by omega) hbelow, Nat.mul_one, Nat.mul_one]
  rfl

/-- A read of any other is not defined. -/
theorem rreg_eq_none (h : 64 ≤ s + w + 1) : rreg x s w = none := by
  rw [rreg, unsignedShl, if_neg (Nat.not_lt.mpr h)]
  rfl

/-- The bits that a read leaves. -/
theorem testBit_rreg32 (h : s + w + 1 < 64) :
    (rreg32 x s w).testBit i = (x.testBit i && decide (s ≤ i ∧ i ≤ s + w)) := by
  have hlow : 2 ^ s - 1 < 2 ^ 64 := by
    have hpow : 2 ^ s ≤ 2 ^ 64 := Nat.pow_le_pow_right (by decide) (by omega)
    omega
  rw [rreg32, Nat.testBit_and, Nat.testBit_and, Nat.testBit_two_pow_sub_one, Nat.sub_sub, Nat.add_comm 1,
    Nat.testBit_two_pow_sub_succ hlow, Nat.testBit_two_pow_sub_one]
  by_cases hin : s ≤ i ∧ i ≤ s + w
  · have habove : i < s + w + 1 := by omega
    have hword : i < 64 := by omega
    have hbelow : ¬ i < s := by omega
    simp only [hin, habove, hword, hbelow, and_self, decide_true, decide_false, Bool.not_false, Bool.and_true]
  · by_cases habove : i < s + w + 1
    · have hbelow : i < s := by omega
      simp only [hin, hbelow, decide_true, decide_false, Bool.not_true, Bool.and_false]
    · simp only [hin, habove, decide_false, Bool.false_and, Bool.and_false]

/-- The mask of a write, where it is defined. -/
theorem fieldMask_eq (hs : s < 32) (hw : w < 31) : fieldMask s w = some (((2 ^ w - 1 : ℤ) * 2 ^ s).bmod (2 ^ 32)) := by
  have hpow : (2 : ℤ) ^ w ≤ 2 ^ 30 := by exact_mod_cast Nat.pow_le_pow_right (n := 2) (by decide) (Nat.le_of_lt_succ hw)
  have hpos : (0 : ℤ) < 2 ^ w := Int.pow_pos (by decide)
  have hone : ((1 : ℤ) * 2 ^ w).bmod (2 ^ 32) = 2 ^ w := by
    rw [Int.one_mul]
    exact Int.bmod_eq_of_le (by omega) (by omega)
  rw [fieldMask, intShl, if_pos (by omega), hone]
  change (inInt (2 ^ w - 1)).bind (fun low => intShl low s) = _
  rw [inInt_of_bounds (by omega) (by omega)]
  exact if_pos hs

/-- The bits that a write keeps: those outside the field, but none behind it when the field does not end before bit 31. -/
theorem testBit_keep (hbits : 32 ≤ bits) (hs : s < 32) :
    (toUnsigned bits (-(((2 ^ w - 1 : ℤ) * 2 ^ s).bmod (2 ^ 32)) - 1)).testBit i =
      decide (i < bits ∧ (i < s ∨ s + w < 32 ∧ s + w ≤ i)) := by
  by_cases hend : s + w < 32
  · -- the mask is not negative
    have hsplit : 2 ^ (s + w) = 2 ^ s * 2 ^ w := Nat.pow_add 2 s w
    have hsum : 2 ^ (s + w) ≤ 2 ^ 31 := Nat.pow_le_pow_right (by decide) (by omega)
    have hword : 2 ^ 32 ≤ 2 ^ bits := Nat.pow_le_pow_right (by decide) hbits
    have hfield : 2 ^ s * (2 ^ w - 1) < 2 ^ 31 := by
      have hpos := Nat.two_pow_pos s
      rw [Nat.mul_sub, ← hsplit, Nat.mul_one]
      omega
    have hmask : ((2 ^ w - 1 : ℤ) * 2 ^ s).bmod (2 ^ 32) = ((2 ^ s * (2 ^ w - 1) : ℕ) : ℤ) := by
      have hcast : (2 ^ w - 1 : ℤ) * 2 ^ s = ((2 ^ s * (2 ^ w - 1) : ℕ) : ℤ) := by
        rw [Nat.cast_mul, Nat.cast_sub (Nat.one_le_two_pow)]
        push_cast
        exact Int.mul_comm _ _
      rw [hcast]
      exact Int.bmod_eq_of_le (by omega) (by omega)
    rw [hmask, toUnsigned_complement (by omega), Nat.testBit_two_pow_sub_succ (by omega), Nat.testBit_two_pow_mul,
      Nat.testBit_two_pow_sub_one]
    by_cases hin : s ≤ i ∧ i < s + w
    · have hwidth : i - s < w := by omega
      have hout : ¬ (i < bits ∧ (i < s ∨ s + w < 32 ∧ s + w ≤ i)) := by omega
      simp [hin.1, hwidth, hout]
    · have hwidth : ¬ (i ≥ s ∧ i - s < w) := by omega
      have hout : (i < bits ∧ (i < s ∨ s + w < 32 ∧ s + w ≤ i)) ↔ i < bits := by omega
      rw [← Bool.decide_and, decide_eq_false hwidth]
      simp only [hout, Bool.not_false, Bool.and_true]
  · -- the mask is negative, and its complement has no bits from `s` on
    have hlow : (2 : ℤ) ^ s ≤ 2 ^ 31 := by exact_mod_cast Nat.pow_le_pow_right (n := 2) (by decide) (Nat.le_of_lt_succ hs)
    have hlowpos : (0 : ℤ) < 2 ^ s := Int.pow_pos (by decide)
    have hmask : ((2 ^ w - 1 : ℤ) * 2 ^ s).bmod (2 ^ 32) = -2 ^ s := by
      have hsum : (2 ^ w - 1 : ℤ) * 2 ^ s = -2 ^ s + ((2 ^ 32 : ℕ) : ℤ) * 2 ^ (s + w - 32) := by
        have hpow : ((2 ^ 32 : ℕ) : ℤ) * 2 ^ (s + w - 32) = 2 ^ w * 2 ^ s := by
          rw [Nat.cast_pow, Nat.cast_ofNat, ← pow_add, ← pow_add]
          congr 1
          omega
        rw [hpow, Int.sub_mul, Int.one_mul]
        omega
      rw [hsum, Int.add_mul_bmod_self_left]
      exact Int.bmod_eq_of_le (by omega) (by omega)
    have hpos := Nat.two_pow_pos s
    have hword : 2 ^ s < 2 ^ bits := Nat.pow_lt_pow_right (by decide) (by omega)
    have hcast : -(-2 ^ s : ℤ) - 1 = ((2 ^ s - 1 : ℕ) : ℤ) := by
      rw [Nat.cast_sub Nat.one_le_two_pow]
      push_cast
      omega
    rw [hmask, hcast, toUnsigned_natCast (by omega), Nat.testBit_two_pow_sub_one]
    have hbelow : (i < bits ∧ (i < s ∨ s + w < 32 ∧ s + w ≤ i)) ↔ i < s := by omega
    simp only [hbelow]

/-- The bits of the word that is stored. -/
theorem testBit_rmwreg (hbits : 32 ≤ bits) (hs : s < 32) (hpos : 1 ≤ w) (hw : w < 31) (hin : s + w ≤ bits) (hx : x < 2 ^ bits)
    (hv : v < 2 ^ w) : ∃ y, rmwreg bits x s w v = some y ∧ ∀ i, y.testBit i =
      if i < s then x.testBit i else if i < s + w then v.testBit (i - s) else x.testBit i && decide (s + w < 32) := by
  have hval : 2 ^ s * v < 2 ^ bits := by
    apply Nat.lt_of_lt_of_le _ (Nat.pow_le_pow_right (by decide) hin)
    rw [Nat.pow_add]
    exact Nat.mul_lt_mul_of_pos_left hv (Nat.two_pow_pos s)
  refine ⟨x &&& toUnsigned bits (-(((2 ^ w - 1 : ℤ) * 2 ^ s).bmod (2 ^ 32)) - 1) ||| 2 ^ s * v, ?_, fun i => ?_⟩
  · rw [rmwreg, fieldMask_eq hs hw, unsignedShl_of_lt (by omega) hval]
    rfl
  · rw [Nat.testBit_or, Nat.testBit_and, testBit_keep hbits hs, Nat.testBit_two_pow_mul]
    by_cases hbelow : i < s
    · have hout : ¬ i ≥ s := by omega
      have hword : i < bits := by omega
      simp only [hbelow, hout, hword, true_or, and_self, decide_true, decide_false, Bool.and_true, Bool.false_and,
        Bool.or_false, if_true]
    · have hfrom : i ≥ s := by omega
      rw [if_neg hbelow]
      by_cases hfield : i < s + w
      · have hnot : ¬ s + w ≤ i := by omega
        simp only [hbelow, hfrom, hfield, hnot, and_false, or_false, decide_true, decide_false, Bool.and_false, Bool.true_and,
          Bool.false_or, if_true]
      · have hbit : v.testBit (i - s) = false :=
          Nat.testBit_lt_two_pow (Nat.lt_of_lt_of_le hv (Nat.pow_le_pow_right (by decide) (by omega)))
        have hbehind : s + w ≤ i := by omega
        rw [if_neg hfield, hbit, Bool.and_false, Bool.or_false]
        by_cases hword : i < bits
        · simp only [hword, hbelow, hbehind, true_and, false_or, and_true]
        · have hzero : x.testBit i = false :=
            Nat.testBit_lt_two_pow (Nat.lt_of_lt_of_le hx (Nat.pow_le_pow_right (by decide) (by omega)))
          rw [hzero, Bool.false_and, Bool.false_and]

/-- A write is not defined for the other fields. -/
theorem rmwreg_defined (h : rmwreg bits x s w v = some y) (hpos : 1 ≤ w) : s < 32 ∧ w < 31 := by
  unfold rmwreg fieldMask at h
  simp only [Option.bind_eq_bind, Option.bind_eq_some_iff] at h
  obtain ⟨mask, ⟨one, hone, low, hlow, hmask⟩, -⟩ := h
  unfold intShl at hone hmask
  have hwidth : w < 32 := by
    by_contra hwide
    rw [if_neg hwide] at hone
    exact absurd hone (by simp)
  have hstart : s < 32 := by
    by_contra hfar
    rw [if_neg hfar] at hmask
    exact absurd hmask (by simp)
  refine ⟨hstart, ?_⟩
  by_contra hwide
  have heq : w = 31 := by omega
  subst heq
  rw [if_pos (by decide)] at hone
  obtain rfl := Option.some.inj hone
  have hnone : inInt ((1 * 2 ^ 31 : ℤ).bmod (2 ^ 32) - 1) = none := by decide
  rw [hnone] at hlow
  exact absurd hlow (by simp)

/-- The laws hold of a field exactly when the masks are defined, the bit behind it is clear, the first bit of it keeps its
value, and the mask of a write does not take bits that are set. -/
theorem fieldLaws_iff (hbits : bits = 32 ∨ bits = 64) (hx : x < 2 ^ bits) (hpos : 1 ≤ w) (hin : s + w ≤ bits)
    (hv : v < 2 ^ w) : FieldLaws bits x s w v ↔ s < 32 ∧ w < 31 ∧ x.testBit (s + w) = false ∧
      (s = 0 ∨ x.testBit s = v.testBit 0) ∧ (32 ≤ s + w → x < 2 ^ (s + w)) := by
  have hlow : 32 ≤ bits := by omega
  have hbehind (i : ℕ) (hi : s + w ≤ i) : v.testBit (i - s) = false :=
    Nat.testBit_lt_two_pow (Nat.lt_of_lt_of_le hv (Nat.pow_le_pow_right (by decide) (by omega)))
  constructor
  · rintro ⟨y, hwrite, hread, hother, hfields⟩
    obtain ⟨hs, hw⟩ := rmwreg_defined hwrite hpos
    obtain ⟨z, hz, hbits'⟩ := testBit_rmwreg hlow hs hpos hw hin hx hv
    obtain rfl := Option.some.inj (hwrite.symm.trans hz)
    have hnext : x.testBit (s + w) = false := by
      rw [rreg_eq (by omega), Option.some.injEq] at hread
      have hbit := congrArg (fun r => r.testBit (s + w)) hread
      rw [testBit_rreg32 (by omega), Nat.testBit_two_pow_mul, hbehind _ (Nat.le_refl _), Bool.and_false,
        decide_eq_true (by omega), Bool.and_true] at hbit
      rw [← hother (s + w) (Or.inr (Nat.le_refl _)), hbit]
    refine ⟨hs, hw, hnext, ?_, fun hend => ?_⟩
    · by_cases hzero : s = 0
      · exact Or.inl hzero
      · right
        have hbelow := hfields 0 s (by omega) (by omega) (Or.inl (by omega))
        rw [rreg_eq (by omega), rreg_eq (by omega), Option.some.injEq] at hbelow
        have hbit := congrArg (fun r => r.testBit s) hbelow
        rw [testBit_rreg32 (by omega), testBit_rreg32 (by omega), decide_eq_true (by omega), Bool.and_true, Bool.and_true,
          hbits', if_neg (Nat.lt_irrefl s), if_pos (by omega), Nat.sub_self] at hbit
        exact hbit.symm
    · apply Nat.lt_pow_two_of_testBit
      intro i hi
      rw [← hother i (Or.inr hi), hbits', if_neg (by omega), if_neg (by omega), decide_eq_false (by omega), Bool.and_false]
  · rintro ⟨hs, hw, hnext, hfirst, hend⟩
    obtain ⟨y, hwrite, hbits'⟩ := testBit_rmwreg hlow hs hpos hw hin hx hv
    have hother (i : ℕ) (hi : i < s ∨ s + w ≤ i) : y.testBit i = x.testBit i := by
      rw [hbits']
      by_cases hbelow : i < s
      · rw [if_pos hbelow]
      · rw [if_neg hbelow, if_neg (by omega)]
        by_cases hshort : s + w < 32
        · rw [decide_eq_true hshort, Bool.and_true]
        · have hclear : x.testBit i = false := by
            have hsmall := hend (by omega)
            exact Nat.testBit_lt_two_pow (Nat.lt_of_lt_of_le hsmall (Nat.pow_le_pow_right (by decide) (by omega)))
          rw [hclear, Bool.false_and]
    refine ⟨y, hwrite, ?_, hother, fun s' w' hpos' hin' hapart => ?_⟩
    · rw [rreg_eq (by omega), Option.some.injEq]
      apply Nat.eq_of_testBit_eq
      intro i
      rw [testBit_rreg32 (by omega), Nat.testBit_two_pow_mul]
      by_cases hfield : s ≤ i ∧ i < s + w
      · rw [decide_eq_true (by omega), decide_eq_true hfield.1, Bool.and_true, Bool.true_and, hbits', if_neg (by omega),
          if_pos hfield.2]
      · by_cases hlast : i = s + w
        · subst hlast
          rw [hother _ (Or.inr (Nat.le_refl _)), hnext, hbehind _ (Nat.le_refl _), Bool.false_and, Bool.and_false]
        · rw [decide_eq_false (by omega), Bool.and_false]
          by_cases hfrom : s ≤ i
          · rw [hbehind i (by omega), Bool.and_false]
          · rw [decide_eq_false hfrom, Bool.false_and]
    · by_cases hdefined : s' + w' + 1 < 64
      · rw [rreg_eq hdefined, rreg_eq hdefined, Option.some.injEq]
        apply Nat.eq_of_testBit_eq
        intro i
        rw [testBit_rreg32 hdefined, testBit_rreg32 hdefined]
        by_cases hread : s' ≤ i ∧ i ≤ s' + w'
        · by_cases hfield : s ≤ i ∧ i < s + w
          · -- the field below reads the first bit of this one
            have hstart : i = s := by omega
            subst hstart
            rw [hbits', if_neg (Nat.lt_irrefl i), if_pos hfield.2, Nat.sub_self, hfirst.resolve_left (by omega)]
          · rw [hother i (by omega)]
        · rw [decide_eq_false hread, Bool.and_false, Bool.and_false]
      · rw [rreg_eq_none (by omega), rreg_eq_none (by omega)]

/-- A field of 8 bits in a register of 32. -/
theorem fieldLaws_iff_byte : FieldLaws 32 0x00AA00FF 8 8 0xCC :=
  (fieldLaws_iff (Or.inl rfl) (by decide) (by decide) (by decide) (by decide)).mpr
    ⟨by decide, by decide, by decide, Or.inr (by decide), by decide⟩

/-- Behind the lowest byte there is a bit that is read with it. -/
theorem fieldLaws_neighbour : ¬ FieldLaws 32 0x100 0 8 0x12 := by
  rintro ⟨y, hwrite, hread, -⟩
  have hstored : rmwreg 32 0x100 0 8 0x12 = some 0x112 := by decide
  obtain rfl := Option.some.inj (hwrite.symm.trans hstored)
  exact absurd hread (by decide)

end Cthulhu
