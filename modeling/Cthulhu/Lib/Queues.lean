import Mathlib.Algebra.BigOperators.Fin
import Mathlib.Algebra.BigOperators.Group.Finset.Piecewise
import Mathlib.Algebra.Order.BigOperators.Group.Finset

/-!
# Families of queues

A finite family of first-in first-out sequences, and how often an element occurs in all of
them together. A push adds one occurrence and a pop takes one away, whichever queue it is.
-/

namespace Cthulhu.Lib

variable {ι α β : Type*} [Fintype ι] [DecidableEq ι]

/-- Replacing one member of a family moves a sum over it by the difference at that member. -/
theorem sum_update_add (f : β → ℕ) (q : ι → β) (i : ι) (v : β) :
    ∑ k, f (Function.update q i v k) + f (q i) = ∑ k, f (q k) + f v := by
  have hnew : ∑ k, f (Function.update q i v k) = f v + ∑ k ∈ Finset.univ \ {i}, f (q k) := by
    have hupdate : (fun k => f (Function.update q i v k)) = Function.update (fun k => f (q k)) i (f v) :=
      Function.comp_update f q i v
    rw [hupdate, Finset.sum_update_of_mem (Finset.mem_univ i)]
  have hold : ∑ k, f (q k) = f (q i) + ∑ k ∈ Finset.univ \ {i}, f (q k) := by
    rw [← Finset.add_sum_erase _ _ (Finset.mem_univ i), Finset.sdiff_singleton_eq_erase]
  omega

variable [DecidableEq α]

/-- How often an element occurs in the queues of a family. -/
def occurrences (q : ι → List α) (x : α) : ℕ := ∑ k, (q k).count x

/-- A push adds one occurrence of what is pushed. -/
theorem occurrences_push (q : ι → List α) (i : ι) (t x : α) :
    occurrences (Function.update q i (q i ++ [t])) x = occurrences q x + if t = x then 1 else 0 := by
  have hsum := sum_update_add (fun l => l.count x) q i (q i ++ [t])
  rw [List.count_append, List.count_singleton] at hsum
  unfold occurrences
  simp only [beq_iff_eq] at hsum
  omega

/-- A pop takes one occurrence of what is popped. -/
theorem occurrences_pop {q : ι → List α} {i : ι} {t : α} {ts : List α} (h : q i = t :: ts) (x : α) :
    occurrences q x = occurrences (Function.update q i ts) x + if t = x then 1 else 0 := by
  have hsum := sum_update_add (fun l => l.count x) q i ts
  rw [h, List.count_cons] at hsum
  unfold occurrences
  simp only [beq_iff_eq] at hsum
  omega

omit [DecidableEq ι] in
/-- An element in some queue occurs. -/
theorem occurrences_pos {q : ι → List α} {x : α} : 0 < occurrences q x ↔ ∃ i, x ∈ q i := by
  unfold occurrences
  constructor
  · intro hpos
    by_contra hnone
    have hzero (i : ι) : (q i).count x = 0 := List.count_eq_zero.mpr fun hmem => hnone ⟨i, hmem⟩
    simp [hzero] at hpos
  · rintro ⟨i, hi⟩
    have hle : (q i).count x ≤ ∑ k, (q k).count x :=
      Finset.single_le_sum (fun k _ => Nat.zero_le ((q k).count x)) (Finset.mem_univ i)
    have hcount := List.count_pos_iff.mpr hi
    omega

omit [Fintype ι] [DecidableEq ι] in
/-- Filtering out the front of a list without repetitions leaves the rest. -/
theorem filter_not_mem_take {l : List α} (h : l.Nodup) (k : ℕ) : (l.filter fun x => x ∉ l.take k) = l.drop k := by
  have hsplit := List.take_append_drop k l
  rw [← hsplit, List.nodup_append] at h
  have hfront : (l.take k).filter (fun x => x ∉ l.take k) = [] := List.filter_eq_nil_iff.mpr fun x hx => by
    simp [hx]
  have hback : (l.drop k).filter (fun x => x ∉ l.take k) = l.drop k := List.filter_eq_self.mpr fun x hx => by
    simpa using fun hfront => h.2.2 x hfront x hx rfl
  conv_lhs => rw [← hsplit, List.filter_append]
  rw [hsplit, hfront, hback, List.nil_append]

end Cthulhu.Lib
