import Mathlib.Algebra.GroupWithZero.Nat

/-!
# Literals of bounded types

A literal of `Fin n` rests on a proof of `n ≠ 0`. With one instance for every bound in use, a
definition that holds such a literal holds no proof of its own.
-/

namespace Cthulhu.Lib

instance (priority := 2000) neZero_succ (n : ℕ) : NeZero (n + 1) := ⟨Nat.succ_ne_zero n⟩

instance (priority := 3000) neZero_one : NeZero (0 + 1) := ⟨Nat.one_ne_zero⟩

instance (priority := 3000) neZero_two : NeZero (1 + 1) := ⟨Nat.succ_ne_zero 1⟩

instance (priority := 3000) neZero_five : NeZero 5 := ⟨Nat.succ_ne_zero 4⟩

end Cthulhu.Lib
