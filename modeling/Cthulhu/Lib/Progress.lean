import Mathlib.Order.WellFounded

/-!
# Progress by a rank

A run reaches its goal when a rank goes down at every step that is not blocked and stays at those that are, provided
that the steps are not blocked for ever. The rank is any well-founded relation, and it may be a relation to the state
and not a function of it.
-/

namespace Cthulhu.Lib

variable {ρ : Type*} {smaller : ρ → ρ → Prop} {ranked : ℕ → ρ → Prop} {goal blocked : ℕ → Prop}

/-- Up to a point that is reached through blocked steps only, the rank stays, unless the goal was reached. -/
theorem ranked_through_blocked
    (hstep : ∀ k a, ranked k a → goal k ∨ (∃ b, smaller b a ∧ ranked (k + 1) b) ∨ blocked k ∧ ranked (k + 1) a)
    {k d : ℕ} {a : ρ} (h : ranked k a) :
    (∃ m, k ≤ m ∧ m < k + d ∧ (goal m ∨ ∃ b, smaller b a ∧ ranked (m + 1) b)) ∨ ranked (k + d) a := by
  induction d with
  | zero => exact Or.inr h
  | succ d ih =>
    rcases ih with ⟨m, hle, hlt, hm⟩ | hd
    · exact Or.inl ⟨m, hle, Nat.lt_succ_of_lt hlt, hm⟩
    · rcases hstep (k + d) a hd with hgoal | hsmaller | ⟨-, hstays⟩
      · exact Or.inl ⟨k + d, Nat.le_add_right k d, Nat.lt_succ_self _, Or.inl hgoal⟩
      · exact Or.inl ⟨k + d, Nat.le_add_right k d, Nat.lt_succ_self _, Or.inr hsmaller⟩
      · exact Or.inr hstays

/-- The progress rule. -/
theorem reaches_of_rank (hwf : WellFounded smaller)
    (hstep : ∀ k a, ranked k a → goal k ∨ (∃ b, smaller b a ∧ ranked (k + 1) b) ∨ blocked k ∧ ranked (k + 1) a)
    (hfair : ∀ k, ∃ m, k ≤ m ∧ ¬ blocked m) {k : ℕ} {a : ρ} (h : ranked k a) : ∃ m, k ≤ m ∧ goal m := by
  induction a using hwf.induction generalizing k with
  | _ a ih =>
    have hlater {m : ℕ} (hm : k ≤ m) (hdone : goal m ∨ ∃ b, smaller b a ∧ ranked (m + 1) b) : ∃ m, k ≤ m ∧ goal m := by
      rcases hdone with hgoal | ⟨b, hb, hranked⟩
      · exact ⟨m, hm, hgoal⟩
      · obtain ⟨m', hm', hgoal⟩ := ih b hb hranked
        exact ⟨m', by omega, hgoal⟩
    obtain ⟨m, hm, hfree⟩ := hfair k
    obtain ⟨d, rfl⟩ := Nat.exists_eq_add_of_le hm
    rcases ranked_through_blocked hstep h (d := d) with ⟨m, hle, -, hdone⟩ | hd
    · exact hlater hle hdone
    · rcases hstep (k + d) a hd with hgoal | hsmaller | ⟨hblocked, -⟩
      · exact hlater hm (Or.inl hgoal)
      · exact hlater hm (Or.inr hsmaller)
      · exact absurd hblocked hfree

end Cthulhu.Lib
