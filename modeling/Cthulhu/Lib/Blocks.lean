import Mathlib.Logic.Function.Basic
import Cthulhu.Lib.Run

/-!
# Tables filled in blocks

Nested loops that fill a table block by block, with the loop numbers as the digits of the index, fill one large block.
-/

namespace Cthulhu.Lib

variable {β : Type*}

/-- A table with the places of a block replaced. -/
def fillBlock (lo size : ℕ) (g : ℕ → β) (t : ℕ → β) (x : ℕ) : β := if lo ≤ x ∧ x < lo + size then g (x - lo) else t x

/-- A block of one place. -/
theorem fillBlock_one (lo : ℕ) (b : β) (t : ℕ → β) : fillBlock lo 1 (fun _ => b) t = Function.update t lo b := by
  funext x
  unfold fillBlock
  by_cases h : x = lo
  · rw [if_pos (by omega), h, Function.update_self]
  · rw [if_neg (by omega), Function.update_of_ne h]

/-- Blocks of one size behind each other are one block, in which the place has the number of the block and the place in
it for digits. -/
theorem run_fillBlock {w : ℕ} (hw : 0 < w) (lo n : ℕ) (g : ℕ → ℕ → β) (t : ℕ → β) :
    run (fun t k => fillBlock (lo + w * k) w (g k) t) t (List.range n) =
      fillBlock lo (w * n) (fun o => g (o / w) (o % w)) t := by
  induction n with
  | zero =>
    funext x
    exact (if_neg (by omega)).symm
  | succ n ih =>
    have hlast : run (fun t k => fillBlock (lo + w * k) w (g k) t) t (List.range (n + 1)) =
        fillBlock (lo + w * n) w (g n) (run (fun t k => fillBlock (lo + w * k) w (g k) t) t (List.range n)) := by
      rw [List.range_succ, run, List.foldl_append]
      rfl
    rw [hlast, ih]
    funext x
    unfold fillBlock
    by_cases hin : lo + w * n ≤ x ∧ x < lo + w * n + w
    · obtain ⟨o, ho⟩ := Nat.exists_eq_add_of_le hin.1
      have hplace : x - lo = o + w * n := by omega
      have hsmall : o < w := by omega
      rw [if_pos hin, if_pos (by rw [Nat.mul_succ]; omega), hplace]
      dsimp only
      rw [Nat.add_mul_div_left _ _ hw, Nat.div_eq_of_lt hsmall,
        Nat.zero_add, Nat.add_mul_mod_self_left, Nat.mod_eq_of_lt hsmall]
      congr 1
      omega
    · rw [if_neg hin]
      by_cases hbelow : lo ≤ x ∧ x < lo + w * n
      · rw [if_pos hbelow, if_pos (by rw [Nat.mul_succ]; omega)]
      · rw [if_neg hbelow, if_neg (by rw [Nat.mul_succ]; omega)]

end Cthulhu.Lib
