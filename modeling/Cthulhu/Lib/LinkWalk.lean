import Mathlib.Algebra.Order.BigOperators.Group.Finset
import Cthulhu.Lib.LinkCount

/-!
# Walks through multi-level tables

A walk follows one index per level from a table. A write below the end of a walk does not
change it, and a graft of an empty table can only lengthen it by that table. Every table is
reached by a walk, and when no table is linked twice, the walk is determined by the table it
ends in.
-/

namespace Cthulhu.Lib.Links

variable {N I W : Type*} [DecidableEq N] [DecidableEq I]

/-- The table reached from a table of the given level by one index per level. -/
def walk (L : Links N I W) (M : N → I → W) : ℕ → N → List I → Option N
  | _, T, [] => some T
  | l, T, i :: path => (L.child l i (M T i)).bind fun C => L.walk M (l + 1) C path

variable {L : Links N I W} {M M' : N → I → W} {roots : Finset N}

omit [DecidableEq N] [DecidableEq I] in
/-- A walk through a link goes on from the linked table. -/
theorem walk_cons_some {l : ℕ} {T C : N} {i : I} (path : List I) (h : L.child l i (M T i) = some C) :
    L.walk M l T (i :: path) = L.walk M (l + 1) C path := by
  rw [walk, h, Option.bind_some]

omit [DecidableEq N] [DecidableEq I] in
/-- A walk ends where there is no link. -/
theorem walk_cons_none {l : ℕ} {T : N} {i : I} (path : List I) (h : L.child l i (M T i) = none) :
    L.walk M l T (i :: path) = none := by
  rw [walk, h, Option.bind_none]

omit [DecidableEq N] [DecidableEq I] in
/-- A walk goes on from where its first part ends. -/
theorem walk_append (l : ℕ) (T : N) (path rest : List I) :
    L.walk M l T (path ++ rest) = (L.walk M l T path).bind fun D => L.walk M (l + path.length) D rest := by
  induction path generalizing l T with
  | nil => rfl
  | cons j path ih =>
    cases hchild : L.child l j (M T j) with
    | none => rw [List.cons_append, walk_cons_none _ hchild, walk_cons_none _ hchild, Option.bind_none]
    | some C =>
      rw [List.cons_append, walk_cons_some _ hchild, walk_cons_some _ hchild, ih]
      simp only [List.length_cons, Nat.add_assoc, Nat.add_comm 1]

omit [DecidableEq N] [DecidableEq I] in
/-- A walk with one more index reads one more word. -/
theorem walk_snoc (l : ℕ) (T : N) (path : List I) (i : I) :
    L.walk M l T (path ++ [i]) =
      (L.walk M l T path).bind fun D => L.child (l + path.length) i (M D i) := by
  rw [walk_append]
  congr 1
  funext D
  exact Option.bind_fun_some _

omit [DecidableEq N] [DecidableEq I] in
/-- The first part of a walk is a walk. -/
theorem walk_prefix {l : ℕ} {T D : N} {path rest : List I} (h : L.walk M l T (path ++ rest) = some D) :
    ∃ C, L.walk M l T path = some C ∧ L.walk M (l + path.length) C rest = some D := by
  rw [walk_append] at h
  exact Option.bind_eq_some_iff.mp h

omit [DecidableEq I] in
/-- A walk ends in a table of its level. -/
theorem walk_mem {l : ℕ} {T D : N} {path : List I} (hT : T ∈ L.tables M roots l)
    (hpath : ∀ i ∈ path, i ∈ L.slots) (h : L.walk M l T path = some D) :
    D ∈ L.tables M roots (l + path.length) := by
  induction path generalizing l T with
  | nil =>
    obtain rfl : T = D := Option.some.inj h
    exact hT
  | cons i path ih =>
    rw [List.forall_mem_cons] at hpath
    cases hchild : L.child l i (M T i) with
    | none =>
      rw [walk_cons_none path hchild] at h
      exact absurd h (by simp)
    | some C =>
      rw [walk_cons_some path hchild] at h
      have hC := ih (mem_tables_succ.mpr ⟨T, hT, i, hpath.1, hchild⟩) hpath.2 h
      rwa [Nat.add_assoc, Nat.add_comm 1] at hC

omit [DecidableEq I] in
/-- A walk is determined by the links it reads. -/
theorem walk_congr {l : ℕ} {T : N} {path : List I} (hT : T ∈ L.tables M roots l)
    (hpath : ∀ i ∈ path, i ∈ L.slots)
    (h : ∀ l', l ≤ l' → l' < l + path.length → ∀ T' ∈ L.tables M roots l', ∀ i ∈ L.slots,
      L.child l' i (M' T' i) = L.child l' i (M T' i)) :
    L.walk M' l T path = L.walk M l T path := by
  induction path generalizing l T with
  | nil => rfl
  | cons i path ih =>
    rw [List.forall_mem_cons] at hpath
    rw [List.length_cons] at h
    have hsame := h l (Nat.le_refl l) (by omega) T hT i hpath.1
    cases hchild : L.child l i (M T i) with
    | none => rw [walk_cons_none path hchild, walk_cons_none path (hsame.trans hchild)]
    | some C =>
      rw [walk_cons_some path hchild, walk_cons_some path (hsame.trans hchild)]
      refine ih (mem_tables_succ.mpr ⟨T, hT, i, hpath.1, hchild⟩) hpath.2 fun l' hl hl' => ?_
      exact h l' (by omega) (by omega)

omit [DecidableEq I] in
/-- A walk over links that are all in another store is a walk there. -/
theorem walk_mono {l : ℕ} {T D : N} {path : List I} (hT : T ∈ L.tables M' roots l)
    (hpath : ∀ i ∈ path, i ∈ L.slots)
    (h : ∀ l' < l + path.length, ∀ T' ∈ L.tables M' roots l', ∀ i ∈ L.slots, ∀ C,
      L.child l' i (M' T' i) = some C → L.child l' i (M T' i) = some C)
    (hwalk : L.walk M' l T path = some D) : L.walk M l T path = some D := by
  induction path generalizing l T with
  | nil => exact hwalk
  | cons i path ih =>
    rw [List.forall_mem_cons] at hpath
    rw [List.length_cons] at h
    cases hchild : L.child l i (M' T i) with
    | none =>
      rw [walk_cons_none path hchild] at hwalk
      exact absurd hwalk (by simp)
    | some C =>
      rw [walk_cons_some path hchild] at hwalk
      rw [walk_cons_some path (h l (by omega) T hT i hpath.1 C hchild)]
      refine ih (mem_tables_succ.mpr ⟨T, hT, i, hpath.1, hchild⟩) hpath.2 (fun l' hl' => ?_) hwalk
      exact h l' (by omega)

section Store

variable {l : ℕ} {T : N} {i : I} {w : W}

/-- A write at a level the walk does not read leaves the walk as it is. -/
theorem Leveled.walk_store_below (hlev : L.Leveled M roots) (hl : l < L.depth) (hT : T ∈ L.tables M roots l)
    {l' : ℕ} {T' : N} {path : List I} (hT' : T' ∈ L.tables M roots l') (hpath : ∀ j ∈ path, j ∈ L.slots)
    (hlen : l' + path.length ≤ l) :
    L.walk (store M T i w) l' T' path = L.walk M l' T' path := by
  refine walk_congr hT' hpath fun k hk hkl T'' hT'' j _ => ?_
  rw [hlev.store_child hl hT (by omega) (by omega) hT'']

/-- A graft of an empty table keeps every walk, or extends it to end in the new table. -/
theorem Leveled.walk_graft (hlev : L.Leveled M roots) (hl : l < L.depth) (hT : T ∈ L.tables M roots l)
    (hold : L.child l i (M T i) = none) {C : N} (hw : L.child l i w = some C) (hCT : C ≠ T)
    (hempty : l + 1 < L.depth → L.Empty M (l + 1) C) {l' : ℕ} {T' : N} {path : List I}
    (hT' : T' ∈ L.tables M roots l') (hpath : ∀ j ∈ path, j ∈ L.slots) (hlen : l' + path.length ≤ L.depth) :
    L.walk (store M T i w) l' T' path = L.walk M l' T' path ∨
      (L.walk M l' T' path = none ∧ L.walk (store M T i w) l' T' path = some C ∧
        l' + path.length = l + 1) := by
  induction path generalizing l' T' with
  | nil => exact Or.inl rfl
  | cons j path ih =>
    rw [List.forall_mem_cons] at hpath
    rw [List.length_cons] at hlen
    by_cases hhere : T' = T ∧ j = i
    · obtain ⟨rfl, rfl⟩ := hhere
      obtain rfl : l' = l := hlev l' (by omega) l hl T' hT' hT
      have hnew : L.child l' j (store M T' j w T' j) = some C := by rw [store_self, hw]
      rw [walk_cons_none path hold, walk_cons_some path hnew]
      cases path with
      | nil => exact Or.inr ⟨rfl, rfl, rfl⟩
      | cons k path =>
        rw [List.length_cons] at hlen
        have hnone : L.child (l' + 1) k (store M T' j w C k) = none := by
          rw [store_of_ne M w fun h => hCT h.1]
          exact hempty (by omega) k (hpath.2 k List.mem_cons_self)
        exact Or.inl (walk_cons_none path hnone)
    · have hsame := store_of_ne M w hhere
      cases hchild : L.child l' j (M T' j) with
      | none =>
        rw [walk_cons_none path hchild, walk_cons_none path (by rw [hsame, hchild])]
        exact Or.inl rfl
      | some X =>
        rw [walk_cons_some path hchild, walk_cons_some path (by rw [hsame, hchild])]
        have hX := ih (mem_tables_succ.mpr ⟨T', hT', j, hpath.1, hchild⟩) hpath.2 (by omega)
        rw [List.length_cons]
        exact hX.imp_right fun h => ⟨h.1, h.2.1, by omega⟩

/-- The walks that a graft of an empty table makes longer are those that end at its place. -/
theorem Leveled.walk_graft_iff (hlev : L.Leveled M roots) (hl : l < L.depth) (hT : T ∈ L.tables M roots l)
    (hold : L.child l i (M T i) = none) {C : N} (hw : L.child l i w = some C) (hCT : C ≠ T)
    (hempty : l + 1 < L.depth → L.Empty M (l + 1) C) {l' : ℕ} {T' : N} {path : List I} {j : I}
    (hT' : T' ∈ L.tables M roots l') (hpath : ∀ k ∈ path ++ [j], k ∈ L.slots)
    (hlen : l' + path.length < L.depth) :
    L.walk (store M T i w) l' T' (path ++ [j]) =
      if L.walk M l' T' path = some T ∧ j = i then some C else L.walk M l' T' (path ++ [j]) := by
  rw [List.forall_mem_append] at hpath
  rw [walk_snoc, walk_snoc]
  rcases hlev.walk_graft hl hT hold hw hCT hempty hT' hpath.1 (Nat.le_of_lt hlen) with hsame | ⟨hnone, hnew, hlevel⟩
  · rw [hsame]
    cases hwalk : L.walk M l' T' path with
    | none =>
      rw [if_neg fun hhere => absurd hhere.1 (by simp)]
      rfl
    | some D =>
      rw [Option.bind_some, Option.bind_some]
      by_cases hhere : D = T ∧ j = i
      · obtain ⟨rfl, rfl⟩ := hhere
        obtain rfl : l' + path.length = l := hlev _ hlen l hl D (walk_mem hT' hpath.1 hwalk) hT
        rw [if_pos ⟨rfl, rfl⟩, store_self, hw]
      · rw [if_neg fun hboth => hhere ⟨Option.some.inj hboth.1, hboth.2⟩, store_of_ne M w hhere]
  · have hend : L.child (l' + path.length) j (store M T i w C j) = none := by
      rw [store_of_ne M w fun hboth => hCT hboth.1, hlevel]
      exact hempty (by omega) j (hpath.2 j (List.mem_singleton_self j))
    rw [hnew, hnone, if_neg fun hhere => absurd hhere.1 (by simp), Option.bind_some, Option.bind_none, hend]

end Store

section Unique

omit [DecidableEq I] in
/-- Two different words that link to one node are counted twice. -/
theorem two_le_linkCount {n : N} {l l' : ℕ} {T T' : N} {i i' : I}
    (hl : l < L.depth) (hT : T ∈ L.tables M roots l) (hi : i ∈ L.slots)
    (hchild : L.child l i (M T i) = some n)
    (hl' : l' < L.depth) (hT' : T' ∈ L.tables M roots l') (hi' : i' ∈ L.slots)
    (hchild' : L.child l' i' (M T' i') = some n) (hne : (l, T, i) ≠ (l', T', i')) :
    2 ≤ L.linkCount M roots n := by
  have hflat : L.linkCount M roots n =
      ∑ x ∈ (Finset.range L.depth).sigma fun l => L.tables M roots l ×ˢ L.slots,
        L.linkAt M n x.1 x.2.1 x.2.2 := by
    rw [Finset.sum_sigma]
    refine Finset.sum_congr rfl fun l _ => ?_
    exact (Finset.sum_product _ _ fun y : N × I => L.linkAt M n l y.1 y.2).symm
  have hpair := Finset.add_le_sum
    (s := (Finset.range L.depth).sigma fun l => L.tables M roots l ×ˢ L.slots)
    (f := fun x => L.linkAt M n x.1 x.2.1 x.2.2)
    (i := ⟨l, T, i⟩) (j := ⟨l', T', i'⟩) (fun _ _ => Nat.zero_le _)
    (by simp [hl, hT, hi]) (by simp [hl', hT', hi']) (by simpa using hne)
  rw [hflat]
  simpa [linkAt, hchild, hchild'] using hpair

omit [DecidableEq I] in
/-- A node with a single link has a single place that links to it. -/
theorem place_unique {n : N} {l l' : ℕ} {T T' : N} {i i' : I} (hone : L.linkCount M roots n ≤ 1)
    (hl : l < L.depth) (hT : T ∈ L.tables M roots l) (hi : i ∈ L.slots)
    (hchild : L.child l i (M T i) = some n)
    (hl' : l' < L.depth) (hT' : T' ∈ L.tables M roots l') (hi' : i' ∈ L.slots)
    (hchild' : L.child l' i' (M T' i') = some n) : l = l' ∧ T = T' ∧ i = i' := by
  by_contra hne
  have htwo := two_le_linkCount hl hT hi hchild hl' hT' hi' hchild' (by simpa using hne)
  omega

omit [DecidableEq I] in
/-- Where every table below the roots has a single link, a walk is determined by its end. -/
theorem walk_inj
    (hone : ∀ k, k + 1 < L.depth → ∀ X ∈ L.tables M roots (k + 1), L.linkCount M roots X ≤ 1) {l : ℕ}
    {T T' D : N} {path path' : List I} (hlen : path.length = path'.length)
    (hdepth : l + path.length < L.depth) (hT : T ∈ L.tables M roots l) (hT' : T' ∈ L.tables M roots l)
    (hpath : ∀ i ∈ path, i ∈ L.slots) (hpath' : ∀ i ∈ path', i ∈ L.slots)
    (h : L.walk M l T path = some D) (h' : L.walk M l T' path' = some D) : T = T' ∧ path = path' := by
  induction path generalizing l T T' path' with
  | nil =>
    obtain rfl := List.eq_nil_of_length_eq_zero hlen.symm
    exact ⟨(Option.some.inj h).trans (Option.some.inj h').symm, rfl⟩
  | cons i path ih =>
    cases path' with
    | nil => exact absurd hlen (by simp)
    | cons i' path' =>
      rw [List.forall_mem_cons] at hpath hpath'
      rw [List.length_cons] at hdepth
      cases hchild : L.child l i (M T i) with
      | none =>
        rw [walk_cons_none path hchild] at h
        exact absurd h (by simp)
      | some X =>
        cases hchild' : L.child l i' (M T' i') with
        | none =>
          rw [walk_cons_none path' hchild'] at h'
          exact absurd h' (by simp)
        | some X' =>
          rw [walk_cons_some path hchild] at h
          rw [walk_cons_some path' hchild'] at h'
          have hX := mem_tables_succ.mpr ⟨T, hT, i, hpath.1, hchild⟩
          have hX' := mem_tables_succ.mpr ⟨T', hT', i', hpath'.1, hchild'⟩
          obtain ⟨rfl, rfl⟩ := ih (by simpa using hlen) (by omega) hX hX' hpath.2 hpath'.2 h h'
          obtain ⟨-, rfl, rfl⟩ := place_unique (hone l (by omega) X hX) (by omega) hT hpath.1 hchild
            (by omega) hT' hpath'.1 hchild'
          exact ⟨rfl, rfl⟩

omit [DecidableEq I] in
/-- A table linked once and only from above belongs to one level. -/
theorem leveled_of_single
    (hone : ∀ n, L.IsTable M roots n → (if n ∈ roots then 1 else 0) + L.linkCount M roots n = 1) :
    L.Leveled M roots := by
  intro a ha b hb n hna hnb
  have hsingle := hone n ⟨a, ha, hna⟩
  have hroot (k : ℕ) (hk : k + 1 < L.depth) (hnk : n ∈ L.tables M roots (k + 1)) : n ∉ roots := by
    intro hmem
    obtain ⟨T, hT, i, hi, hchild⟩ := mem_tables_succ.mp hnk
    have hpos := linkCount_pos (by omega) hT hi hchild
    rw [if_pos hmem] at hsingle
    omega
  cases a with
  | zero =>
    cases b with
    | zero => rfl
    | succ b => exact absurd hna (hroot b hb hnb)
  | succ a =>
    cases b with
    | zero => exact absurd hnb (hroot a ha hna)
    | succ b =>
      obtain ⟨T, hT, i, hi, hchild⟩ := mem_tables_succ.mp hna
      obtain ⟨T', hT', i', hi', hchild'⟩ := mem_tables_succ.mp hnb
      have hsame := place_unique (by omega) (by omega) hT hi hchild (by omega) hT' hi' hchild'
      rw [hsame.1]

end Unique

end Cthulhu.Lib.Links
