import Mathlib.Data.List.Basic

/-!
# Intrusive linked stacks

A stack threaded through `next` links is a finite list of elements reached from its head.
The representation is a relation, so a cyclic or dangling thread represents no list, and a
representation exists only for acyclic stacks.
-/

namespace Cthulhu.Lib

variable {ι : Type*}

/-- The thread from `head` visits exactly the elements of the list and then ends. -/
inductive Linked (next : ι → Option ι) : Option ι → List ι → Prop
  | nil : Linked next none []
  | cons {i : ι} {l : List ι} (tail : Linked next (next i) l) : Linked next (some i) (i :: l)

/-- The elements visited in at most `fuel` hops. -/
def follow (next : ι → Option ι) : ℕ → Option ι → List ι
  | 0, _ => []
  | _ + 1, none => []
  | fuel + 1, some i => i :: follow next fuel (next i)

/-- A head threads at most one list. -/
theorem Linked.unique {next : ι → Option ι} {head : Option ι} {l l' : List ι}
    (h : Linked next head l) (h' : Linked next head l') : l = l' := by
  induction h generalizing l' with
  | nil => cases h'; rfl
  | cons _ ih =>
    cases h' with
    | cons tail => rw [ih tail]

/-- Only the links of the visited elements matter. -/
theorem Linked.congr {next next' : ι → Option ι} {head : Option ι} {l : List ι}
    (h : Linked next head l) (hagree : ∀ i ∈ l, next' i = next i) : Linked next' head l := by
  induction h with
  | nil => exact .nil
  | @cons i l _ ih =>
    refine .cons ?_
    rw [hagree i List.mem_cons_self]
    exact ih fun j hj => hagree j (List.mem_cons_of_mem i hj)

/-- An empty head threads only the empty list. -/
theorem Linked.eq_nil {next : ι → Option ι} {l : List ι} (h : Linked next none l) : l = [] := by
  cases h
  rfl

/-- An element at the head is the first of the list. -/
theorem Linked.exists_cons {next : ι → Option ι} {i : ι} {l : List ι}
    (h : Linked next (some i) l) : ∃ tail, l = i :: tail ∧ Linked next (next i) tail := by
  cases h with
  | cons tail => exact ⟨_, rfl, tail⟩

/-- Linking a new element before the head pushes it. -/
theorem Linked.push [DecidableEq ι] {next : ι → Option ι} {head : Option ι} {l : List ι}
    (h : Linked next head l) {i : ι} (hi : i ∉ l) :
    Linked (Function.update next i head) (some i) (i :: l) := by
  refine .cons ?_
  rw [Function.update_self]
  refine h.congr fun j hj => Function.update_of_ne ?_ _ _
  rintro rfl
  exact hi hj

/-- Linking a new element behind the last one appends it. -/
theorem Linked.snoc [DecidableEq ι] {next : ι → Option ι} {head : Option ι} {l : List ι} {last new : ι}
    (h : Linked next head (l ++ [last])) (hlast : last ∉ l) (hnew : new ∉ l ++ [last]) :
    Linked (Function.update (Function.update next last (some new)) new none) head (l ++ [last, new]) := by
  induction l generalizing head with
  | nil =>
    have hne : last ≠ new := fun heq => hnew (by simp [heq])
    cases h with
    | cons _ =>
      refine .cons ?_
      rw [Function.update_of_ne hne, Function.update_self]
      refine .cons ?_
      rw [Function.update_self]
      exact .nil
  | cons i l ih =>
    simp only [List.mem_cons, not_or, List.cons_append] at hlast hnew
    cases h with
    | cons tail =>
      refine .cons ?_
      rw [Function.update_of_ne (Ne.symm hnew.1), Function.update_of_ne (Ne.symm hlast.1)]
      exact ih tail hlast.2 hnew.2

/-- Enough hops recover the represented list. -/
theorem Linked.follow_eq {next : ι → Option ι} {head : Option ι} {l : List ι}
    (h : Linked next head l) {fuel : ℕ} (hfuel : l.length ≤ fuel) : follow next fuel head = l := by
  induction h generalizing fuel with
  | nil => cases fuel <;> rfl
  | cons _ ih =>
    cases fuel with
    | zero => simp at hfuel
    | succ fuel => rw [follow, ih (by simpa using hfuel)]

end Cthulhu.Lib
