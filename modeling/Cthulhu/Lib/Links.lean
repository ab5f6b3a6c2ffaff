import Mathlib.Algebra.BigOperators.Group.Finset.Basic
import Mathlib.Algebra.BigOperators.Group.Finset.Piecewise
import Mathlib.Algebra.BigOperators.Group.Finset.Sigma
import Mathlib.Data.Finset.Option
import Mathlib.Data.Finset.Union

/-!
# Multi-level tables in a shared store

A store maps every node to an indexed array of words, and a word at a given level may link
to another node. Starting from root tables, the tables of each level are the nodes linked
from the level above; words of the last level link to data. Nothing makes the structure a
tree: a table may be linked twice.

The library counts the links to a node, and says how the tables and the counts change when
one word is written. Every write is treated as a cut of the old link followed by a graft of
the new one. A cut needs the linked table to be empty, a graft of a table needs it to be
empty or already present.
-/

namespace Cthulhu.Lib

variable {N I W : Type*} [DecidableEq N] [DecidableEq I]

/-- The shape of the tables: how many levels, which indices, and what a word links to. -/
structure Links (N I W : Type*) where
  depth : ℕ
  slots : Finset I
  child : ℕ → I → W → Option N

namespace Links

variable (L : Links N I W)

/-- The tables of each level below the roots. -/
def tables (M : N → I → W) (roots : Finset N) : ℕ → Finset N
  | 0 => roots
  | l + 1 => (tables M roots l).biUnion fun T => L.slots.biUnion fun i => (L.child l i (M T i)).toFinset

/-- The node is a table of some level. -/
def IsTable (M : N → I → W) (roots : Finset N) (n : N) : Prop := ∃ l < L.depth, n ∈ L.tables M roots l

/-- No node is a table of two levels. -/
def Leveled (M : N → I → W) (roots : Finset N) : Prop :=
  ∀ l < L.depth, ∀ l' < L.depth, ∀ n, n ∈ L.tables M roots l → n ∈ L.tables M roots l' → l = l'

/-- No word of the node links to anything at this level. -/
def Empty (M : N → I → W) (l : ℕ) (n : N) : Prop := ∀ i ∈ L.slots, L.child l i (M n i) = none

/-- One if the word at this place links to the node. -/
def linkAt (M : N → I → W) (n : N) (l : ℕ) (T : N) (i : I) : ℕ := if L.child l i (M T i) = some n then 1 else 0

/-- The number of words in tables that link to the node. -/
def linkCount (M : N → I → W) (roots : Finset N) (n : N) : ℕ :=
  ∑ l ∈ Finset.range L.depth, ∑ T ∈ L.tables M roots l, ∑ i ∈ L.slots, L.linkAt M n l T i

/-- The store with one word replaced. -/
def store (M : N → I → W) (T : N) (i : I) (w : W) : N → I → W :=
  Function.update M T (Function.update (M T) i w)

/-- The replaced word. -/
theorem store_self (M : N → I → W) (T : N) (i : I) (w : W) : store M T i w T i = w := by
  simp [store]

/-- Every other word keeps its value. -/
theorem store_of_ne (M : N → I → W) {T T' : N} {i j : I} (w : W) (h : ¬ (T' = T ∧ j = i)) :
    store M T i w T' j = M T' j := by
  unfold store
  by_cases hT : T' = T
  · subst hT
    rw [Function.update_self, Function.update_of_ne fun hj => h ⟨rfl, hj⟩]
  · rw [Function.update_of_ne hT]

variable {L} {M M' : N → I → W} {roots : Finset N}

omit [DecidableEq I] in
/-- Tables are linked from the level above. -/
theorem mem_tables_succ {l : ℕ} {C : N} :
    C ∈ L.tables M roots (l + 1) ↔ ∃ T ∈ L.tables M roots l, ∃ i ∈ L.slots, L.child l i (M T i) = some C := by
  simp [tables, Option.mem_def]

omit [DecidableEq I] in
/-- Levels are determined by the links read above them. -/
theorem tables_congr {k : ℕ}
    (h : ∀ l < k, ∀ T ∈ L.tables M roots l, ∀ i ∈ L.slots, L.child l i (M' T i) = L.child l i (M T i)) :
    ∀ l ≤ k, L.tables M' roots l = L.tables M roots l := by
  intro l
  induction l with
  | zero => exact fun _ => rfl
  | succ l ih =>
    intro hl
    have hsame := ih (by omega)
    ext C
    rw [mem_tables_succ, mem_tables_succ, hsame]
    constructor
    · rintro ⟨T, hT, i, hi, hchild⟩
      exact ⟨T, hT, i, hi, by rw [← h l (by omega) T hT i hi]; exact hchild⟩
    · rintro ⟨T, hT, i, hi, hchild⟩
      exact ⟨T, hT, i, hi, by rw [h l (by omega) T hT i hi]; exact hchild⟩

omit [DecidableEq I] in
/-- The count of links is determined by the links of the tables. -/
theorem linkCount_congr
    (h : ∀ l < L.depth, ∀ T ∈ L.tables M roots l, ∀ i ∈ L.slots, L.child l i (M' T i) = L.child l i (M T i))
    (n : N) : L.linkCount M' roots n = L.linkCount M roots n := by
  unfold linkCount
  refine Finset.sum_congr rfl fun l hl => ?_
  have hl := Finset.mem_range.mp hl
  rw [tables_congr h l (by omega)]
  refine Finset.sum_congr rfl fun T hT => Finset.sum_congr rfl fun i hi => ?_
  unfold linkAt
  rw [h l hl T hT i hi]

omit [DecidableEq I] in
/-- A node with no link to it is no table below the roots. -/
theorem not_mem_tables_of_linkCount {n : N} (h : L.linkCount M roots n = 0) {l : ℕ} (hl : l < L.depth) :
    n ∉ L.tables M roots (l + 1) := by
  intro hmem
  obtain ⟨T, hT, i, hi, hchild⟩ := mem_tables_succ.mp hmem
  unfold linkCount at h
  rw [Finset.sum_eq_zero_iff] at h
  have h := h l (Finset.mem_range.mpr hl)
  rw [Finset.sum_eq_zero_iff] at h
  have h := h T hT
  rw [Finset.sum_eq_zero_iff] at h
  have h := h i hi
  simp [linkAt, hchild] at h

omit [DecidableEq I] in
/-- A linking word of a table makes the count positive. -/
theorem linkCount_pos {n T : N} {l : ℕ} {i : I} (hl : l < L.depth) (hT : T ∈ L.tables M roots l)
    (hi : i ∈ L.slots) (hchild : L.child l i (M T i) = some n) : 1 ≤ L.linkCount M roots n := by
  by_contra hzero
  exact not_mem_tables_of_linkCount (by omega) hl (mem_tables_succ.mpr ⟨T, hT, i, hi, hchild⟩)

omit [DecidableEq I] in
/-- Levels above a common one agree when the links read there do. -/
theorem tables_above {a k : ℕ} (hstart : L.tables M' roots a = L.tables M roots a)
    (h : ∀ l, a ≤ l → l < k → ∀ T ∈ L.tables M roots l, ∀ i ∈ L.slots,
      L.child l i (M' T i) = L.child l i (M T i)) :
    ∀ l, a ≤ l → l ≤ k → L.tables M' roots l = L.tables M roots l := by
  intro l ha hk
  induction l, ha using Nat.le_induction with
  | base => exact hstart
  | succ l hal ih =>
    have hsame := ih (by omega)
    ext C
    rw [mem_tables_succ, mem_tables_succ, hsame]
    constructor
    · rintro ⟨T, hT, i, hi, hchild⟩
      exact ⟨T, hT, i, hi, by rw [← h l hal (by omega) T hT i hi]; exact hchild⟩
    · rintro ⟨T, hT, i, hi, hchild⟩
      exact ⟨T, hT, i, hi, by rw [h l hal (by omega) T hT i hi]; exact hchild⟩

section Store

variable {l : ℕ} {T : N} {i : I} {w : W}

/-- A word written into a table of one level is read at no other level. -/
theorem Leveled.store_child (hlev : L.Leveled M roots) (hl : l < L.depth) (hT : T ∈ L.tables M roots l)
    {l' : ℕ} (hl' : l' < L.depth) (hne : l' ≠ l) {T' : N} (hT' : T' ∈ L.tables M roots l') (j : I) :
    store M T i w T' j = M T' j := by
  refine store_of_ne M w fun h => hne ?_
  rw [h.1] at hT'
  exact hlev l' hl' l hl T hT' hT

/-- Levels up to the written one keep their tables. -/
theorem Leveled.tables_store_below (hlev : L.Leveled M roots) (hl : l < L.depth)
    (hT : T ∈ L.tables M roots l) :
    ∀ l' ≤ l, L.tables (store M T i w) roots l' = L.tables M roots l' := by
  refine tables_congr fun l' hl' T' hT' j _ => ?_
  rw [hlev.store_child hl hT (by omega) (by omega) hT']

/-- Cutting the link to an empty table removes at most that table. -/
theorem Leveled.tables_cut (hlev : L.Leveled M roots) (hl : l < L.depth) (hT : T ∈ L.tables M roots l)
    (hw : L.child l i w = none)
    (hempty : l + 1 < L.depth → ∀ C, L.child l i (M T i) = some C → L.Empty M (l + 1) C) :
    (∀ l' < L.depth, L.tables (store M T i w) roots l' ⊆ L.tables M roots l') ∧
      ∀ l' < L.depth, ∀ n ∈ L.tables M roots l', n ∈ L.tables (store M T i w) roots l' ∨
        (l' = l + 1 ∧ L.child l i (M T i) = some n) := by
  have hbelow := hlev.tables_store_below (i := i) (w := w) hl hT
  have hnextSub : L.tables (store M T i w) roots (l + 1) ⊆ L.tables M roots (l + 1) := by
    intro n hn
    obtain ⟨T', hT', j, hj, hchild⟩ := mem_tables_succ.mp hn
    rw [hbelow l (Nat.le_refl l)] at hT'
    by_cases hhere : T' = T ∧ j = i
    · obtain ⟨rfl, rfl⟩ := hhere
      rw [store_self, hw] at hchild
      exact absurd hchild (by simp)
    · rw [store_of_ne M w hhere] at hchild
      exact mem_tables_succ.mpr ⟨T', hT', j, hj, hchild⟩
  have hnext : ∀ n ∈ L.tables M roots (l + 1), n ∈ L.tables (store M T i w) roots (l + 1) ∨
      L.child l i (M T i) = some n := by
    intro n hn
    obtain ⟨T', hT', j, hj, hchild⟩ := mem_tables_succ.mp hn
    by_cases hhere : T' = T ∧ j = i
    · obtain ⟨rfl, rfl⟩ := hhere
      exact Or.inr hchild
    · refine Or.inl (mem_tables_succ.mpr ⟨T', ?_, j, hj, ?_⟩)
      · rwa [hbelow l (Nat.le_refl l)]
      · rwa [store_of_ne M w hhere]
  -- the only table that can disappear is empty, so the level below it keeps every table
  have habove : l + 2 < L.depth → L.tables (store M T i w) roots (l + 2) = L.tables M roots (l + 2) := by
    intro hdepth
    ext n
    rw [mem_tables_succ, mem_tables_succ]
    constructor
    · rintro ⟨T', hT', j, hj, hchild⟩
      have hT' := hnextSub hT'
      rw [hlev.store_child hl hT (by omega) (by omega) hT'] at hchild
      exact ⟨T', hT', j, hj, hchild⟩
    · rintro ⟨T', hT', j, hj, hchild⟩
      rcases hnext T' hT' with hkept | hcut
      · refine ⟨T', hkept, j, hj, ?_⟩
        rwa [hlev.store_child hl hT (by omega) (by omega) hT']
      · rw [hempty (by omega) T' hcut j hj] at hchild
        exact absurd hchild (by simp)
  have hrest (l' : ℕ) (hl2 : l + 2 ≤ l') (hl' : l' < L.depth) :
      L.tables (store M T i w) roots l' = L.tables M roots l' := by
    refine tables_above (habove (by omega)) (fun k hk hkl T' hT' j _ => ?_) l' hl2 (Nat.le_refl l')
    rw [hlev.store_child hl hT (by omega) (by omega) hT']
  have hcases (l' : ℕ) : l' ≤ l ∨ l' = l + 1 ∨ l + 2 ≤ l' := by omega
  constructor
  · intro l' hl'
    rcases hcases l' with hle | rfl | hge
    · rw [hbelow l' hle]
    · exact hnextSub
    · rw [hrest l' hge hl']
  · intro l' hl' n hn
    rcases hcases l' with hle | rfl | hge
    · rw [hbelow l' hle]
      exact Or.inl hn
    · exact (hnext n hn).imp_right fun h => ⟨rfl, h⟩
    · rw [hrest l' hge hl']
      exact Or.inl hn

/-- Grafting an empty node that is no table adds it to the level below. -/
theorem Leveled.tables_graft (hlev : L.Leveled M roots) (hl : l < L.depth) (hT : T ∈ L.tables M roots l)
    (hi : i ∈ L.slots) (hold : L.child l i (M T i) = none) {C : N} (hw : L.child l i w = some C)
    (hfresh : l + 1 < L.depth → ¬ L.IsTable M roots C ∧ L.Empty M (l + 1) C) :
    ∀ l' < L.depth, L.tables (store M T i w) roots l' =
      if l' = l + 1 then insert C (L.tables M roots l') else L.tables M roots l' := by
  have hbelow := hlev.tables_store_below (i := i) (w := w) hl hT
  have hnext : L.tables (store M T i w) roots (l + 1) = insert C (L.tables M roots (l + 1)) := by
    ext n
    rw [Finset.mem_insert, mem_tables_succ, mem_tables_succ, hbelow l (Nat.le_refl l)]
    constructor
    · rintro ⟨T', hT', j, hj, hchild⟩
      by_cases hhere : T' = T ∧ j = i
      · obtain ⟨rfl, rfl⟩ := hhere
        rw [store_self, hw] at hchild
        exact Or.inl (Option.some.inj hchild).symm
      · rw [store_of_ne M w hhere] at hchild
        exact Or.inr ⟨T', hT', j, hj, hchild⟩
    · rintro (rfl | ⟨T', hT', j, hj, hchild⟩)
      · exact ⟨T, hT, i, hi, by rw [store_self, hw]⟩
      · refine ⟨T', hT', j, hj, ?_⟩
        have hhere : ¬ (T' = T ∧ j = i) := by
          rintro ⟨rfl, rfl⟩
          rw [hold] at hchild
          exact absurd hchild (by simp)
        rwa [store_of_ne M w hhere]
  have habove : l + 2 < L.depth → L.tables (store M T i w) roots (l + 2) = L.tables M roots (l + 2) := by
    intro hdepth
    obtain ⟨hnotTable, hempty⟩ := hfresh (by omega)
    have hCT : C ≠ T := fun heq => hnotTable ⟨l, hl, heq ▸ hT⟩
    ext n
    rw [mem_tables_succ, mem_tables_succ, hnext]
    constructor
    · rintro ⟨T', hT', j, hj, hchild⟩
      rcases Finset.mem_insert.mp hT' with rfl | hT'
      · rw [store_of_ne M w fun h => hCT h.1, hempty j hj] at hchild
        exact absurd hchild (by simp)
      · rw [hlev.store_child hl hT (by omega) (by omega) hT'] at hchild
        exact ⟨T', hT', j, hj, hchild⟩
    · rintro ⟨T', hT', j, hj, hchild⟩
      refine ⟨T', Finset.mem_insert_of_mem hT', j, hj, ?_⟩
      rwa [hlev.store_child hl hT (by omega) (by omega) hT']
  intro l' hl'
  have hcases : l' ≤ l ∨ l' = l + 1 ∨ l + 2 ≤ l' := by omega
  rcases hcases with hle | rfl | hge
  · rw [if_neg (by omega), hbelow l' hle]
  · rw [if_pos rfl, hnext]
  · rw [if_neg (by omega)]
    refine tables_above (habove (by omega)) (fun k hk hkl T' hT' j _ => ?_) l' hge (Nat.le_refl l')
    rw [hlev.store_child hl hT (by omega) (by omega) hT']

end Store

end Links

end Cthulhu.Lib
