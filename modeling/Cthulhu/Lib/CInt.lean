import Mathlib.Data.Int.Basic
import Mathlib.Algebra.Group.Nat.Defs
import Mathlib.Algebra.Ring.Int.Defs

/-!
# Integers of C

The operations on `int` and on the unsigned types, where they are defined: a sum or a product that does not fit in an `int`
is not, and neither is a shift by the width of the type or more. A left shift of an `int` drops the bits that it moves past
the sign.
-/

namespace Cthulhu.Lib

/-- The result of an operation in `int`, where it has one. -/
def inInt (z : ℤ) : Option ℤ := if -2 ^ 31 ≤ z ∧ z < 2 ^ 31 then some z else none

/-- The result of an operation in `unsigned int`, where it does not wrap. -/
def inUnsigned (z : ℤ) : Option ℤ := if 0 ≤ z ∧ z < 2 ^ 32 then some z else none

/-- A left shift of an `int`. -/
def intShl (a : ℤ) (n : ℕ) : Option ℤ := if n < 32 then some ((a * 2 ^ n).bmod (2 ^ 32)) else none

/-- A left shift in an unsigned type of so many bits. -/
def unsignedShl (bits a n : ℕ) : Option ℕ := if n < bits then some (2 ^ n * a % 2 ^ bits) else none

/-- The conversion to an unsigned type. -/
def toUnsigned (bits : ℕ) (z : ℤ) : ℕ := (z % 2 ^ bits).toNat

/-- A computation goes on with the result that it has. -/
theorem some_bind {α : Type} (z : ℤ) (f : ℤ → Option α) : some z >>= f = f z := rfl

/-- An operation with a result that fits. -/
theorem inInt_of_bounds {z : ℤ} (hlow : -2 ^ 31 ≤ z) (hhigh : z < 2 ^ 31) : inInt z = some z := if_pos ⟨hlow, hhigh⟩

/-- What an operation with a result has. -/
theorem inInt_eq_some {z a : ℤ} (h : inInt z = some a) : a = z ∧ -2 ^ 31 ≤ z ∧ z < 2 ^ 31 := by
  unfold inInt at h
  split at h
  · exact ⟨(Option.some.inj h).symm, ‹_›⟩
  · exact absurd h (by simp)

/-- A computation goes on with a result that fits. -/
theorem inInt_bind {α : Type} {z : ℤ} {f : ℤ → Option α} (hlow : -2 ^ 31 ≤ z) (hhigh : z < 2 ^ 31) :
    inInt z >>= f = f z := by
  rw [inInt_of_bounds hlow hhigh, some_bind]

/-- An operation without a sign, with a result that fits. -/
theorem inUnsigned_of_bounds {z : ℤ} (hlow : 0 ≤ z) (hhigh : z < 2 ^ 32) : inUnsigned z = some z := if_pos ⟨hlow, hhigh⟩

/-- A computation goes on with a result without a sign that fits. -/
theorem inUnsigned_bind {α : Type} {z : ℤ} {f : ℤ → Option α} (hlow : 0 ≤ z) (hhigh : z < 2 ^ 32) :
    inUnsigned z >>= f = f z := by
  rw [inUnsigned_of_bounds hlow hhigh, some_bind]

/-- What an operation without a sign has. -/
theorem inUnsigned_eq_some {z a : ℤ} (h : inUnsigned z = some a) : a = z ∧ 0 ≤ z ∧ z < 2 ^ 32 := by
  unfold inUnsigned at h
  split at h
  · exact ⟨(Option.some.inj h).symm, ‹_›⟩
  · exact absurd h (by simp)

/-- A shift that is defined. -/
theorem unsignedShl_of_lt {bits a n : ℕ} (hn : n < bits) (ha : 2 ^ n * a < 2 ^ bits) :
    unsignedShl bits a n = some (2 ^ n * a) := by
  rw [unsignedShl, if_pos hn, Nat.mod_eq_of_lt ha]

/-- A number that is not negative is converted as it is. -/
theorem toUnsigned_natCast {bits n : ℕ} (hn : n < 2 ^ bits) : toUnsigned bits n = n := by
  have hcast : ((n : ℤ) % 2 ^ bits) = ((n % 2 ^ bits : ℕ) : ℤ) := by push_cast; rfl
  rw [toUnsigned, hcast, Nat.mod_eq_of_lt hn, Int.toNat_natCast]

/-- The complement of a number that is not negative. -/
theorem toUnsigned_complement {bits n : ℕ} (hn : n < 2 ^ bits) : toUnsigned bits (-(n : ℤ) - 1) = 2 ^ bits - (n + 1) := by
  have hpow : ((2 ^ bits : ℕ) : ℤ) = 2 ^ bits := by push_cast; rfl
  have hshift : (-(n : ℤ) - 1) % 2 ^ bits = ((2 ^ bits - (n + 1) : ℕ) : ℤ) := by
    rw [← Int.add_emod_right, ← hpow, Int.emod_eq_of_lt (by omega) (by omega)]
    omega
  rw [toUnsigned, hshift, Int.toNat_natCast]

end Cthulhu.Lib
