import Cthulhu.Lib.Links

/-!
# How link counts change

A cut lowers the count of the node it unlinks by one and no other count; a graft raises the
count of the node it links by one and no other count. Both keep the levels apart. A new root
adds the links of its own words.
-/

namespace Cthulhu.Lib

/-- Two sums that differ at one summand, without subtraction. -/
theorem sum_add_of_eq_off {α : Type*} [DecidableEq α] (s : Finset α) (f g : α → ℕ) {a : α} (ha : a ∈ s)
    (h : ∀ x ∈ s, x ≠ a → f x = g x) : ∑ x ∈ s, f x + g a = ∑ x ∈ s, g x + f a := by
  have hrest : ∑ x ∈ s.erase a, f x = ∑ x ∈ s.erase a, g x :=
    Finset.sum_congr rfl fun x hx => h x (Finset.mem_of_mem_erase hx) (Finset.ne_of_mem_erase hx)
  have hf := Finset.add_sum_erase s f ha
  have hg := Finset.add_sum_erase s g ha
  omega

namespace Links

variable {N I W : Type*} [DecidableEq N] [DecidableEq I] {L : Links N I W}
variable {M : N → I → W} {roots : Finset N} {l : ℕ} {T : N} {i : I} {w : W}

omit [DecidableEq I] in
/-- An empty table adds no link to any count. -/
theorem Empty.sum_linkAt {M : N → I → W} {C : N} (h : L.Empty M l C) (n : N) :
    ∑ j ∈ L.slots, L.linkAt M n l C j = 0 :=
  Finset.sum_eq_zero fun j hj => by simp [linkAt, h j hj]

/-- The links read through the old tables, before and after one write. -/
theorem Leveled.sum_linkAt_store (hlev : L.Leveled M roots) (hl : l < L.depth)
    (hT : T ∈ L.tables M roots l) (hi : i ∈ L.slots) (n : N) :
    ∑ l' ∈ Finset.range L.depth, ∑ T' ∈ L.tables M roots l', ∑ j ∈ L.slots,
        L.linkAt (store M T i w) n l' T' j + L.linkAt M n l T i =
      L.linkCount M roots n + L.linkAt (store M T i w) n l T i := by
  have hword := sum_add_of_eq_off L.slots (L.linkAt (store M T i w) n l T) (L.linkAt M n l T) hi
    fun j _ hj => by
      unfold linkAt
      rw [store_of_ne M w fun h => hj h.2]
  have htable := sum_add_of_eq_off (L.tables M roots l)
    (fun T' => ∑ j ∈ L.slots, L.linkAt (store M T i w) n l T' j)
    (fun T' => ∑ j ∈ L.slots, L.linkAt M n l T' j) hT fun T' _ hT' => by
      refine Finset.sum_congr rfl fun j _ => ?_
      unfold linkAt
      rw [store_of_ne M w fun h => hT' h.1]
  have hlevel := sum_add_of_eq_off (Finset.range L.depth)
    (fun l' => ∑ T' ∈ L.tables M roots l', ∑ j ∈ L.slots, L.linkAt (store M T i w) n l' T' j)
    (fun l' => ∑ T' ∈ L.tables M roots l', ∑ j ∈ L.slots, L.linkAt M n l' T' j)
    (Finset.mem_range.mpr hl) fun l' hl' hne => by
      refine Finset.sum_congr rfl fun T' hT' => Finset.sum_congr rfl fun j _ => ?_
      unfold linkAt
      rw [hlev.store_child hl hT (Finset.mem_range.mp hl') hne hT']
  unfold linkCount
  omega

/-- A cut takes one link from the node it unlinks. -/
theorem Leveled.linkCount_cut (hlev : L.Leveled M roots) (hl : l < L.depth) (hT : T ∈ L.tables M roots l)
    (hi : i ∈ L.slots) (hw : L.child l i w = none)
    (hempty : l + 1 < L.depth → ∀ C, L.child l i (M T i) = some C → L.Empty M (l + 1) C) (n : N) :
    L.linkCount (store M T i w) roots n + (if L.child l i (M T i) = some n then 1 else 0) =
      L.linkCount M roots n := by
  obtain ⟨hsub, hkept⟩ := hlev.tables_cut hl hT hw hempty
  have hsums : L.linkCount (store M T i w) roots n =
      ∑ l' ∈ Finset.range L.depth, ∑ T' ∈ L.tables M roots l', ∑ j ∈ L.slots,
        L.linkAt (store M T i w) n l' T' j := by
    refine Finset.sum_congr rfl fun l' hl' => ?_
    have hl' := Finset.mem_range.mp hl'
    refine Finset.sum_subset (hsub l' hl') fun C hC hgone => ?_
    rcases hkept l' hl' C hC with hkeep | ⟨rfl, hchild⟩
    · exact absurd hkeep hgone
    · refine Empty.sum_linkAt (fun j hj => ?_) n
      rw [hlev.store_child hl hT hl' (by omega) hC]
      exact hempty hl' C hchild j hj
  have hstore := hlev.sum_linkAt_store (w := w) hl hT hi n
  have hnew : L.linkAt (store M T i w) n l T i = 0 := by
    simp [linkAt, store_self, hw]
  rw [← hsums, hnew] at hstore
  exact hstore

/-- A graft gives one link to the node it links. -/
theorem Leveled.linkCount_graft (hlev : L.Leveled M roots) (hl : l < L.depth) (hT : T ∈ L.tables M roots l)
    (hi : i ∈ L.slots) (hold : L.child l i (M T i) = none) {C : N} (hw : L.child l i w = some C)
    (hfresh : l + 1 < L.depth → ¬ L.IsTable M roots C ∧ L.Empty M (l + 1) C) (n : N) :
    L.linkCount (store M T i w) roots n = L.linkCount M roots n + if n = C then 1 else 0 := by
  have htables := hlev.tables_graft hl hT hi hold hw hfresh
  have hsums : L.linkCount (store M T i w) roots n =
      ∑ l' ∈ Finset.range L.depth, ∑ T' ∈ L.tables M roots l', ∑ j ∈ L.slots,
        L.linkAt (store M T i w) n l' T' j := by
    refine Finset.sum_congr rfl fun l' hl' => ?_
    have hl' := Finset.mem_range.mp hl'
    rw [htables l' hl']
    split
    next hnext =>
      subst hnext
      obtain ⟨hnot, hemptyC⟩ := hfresh hl'
      have hCT : C ≠ T := fun heq => hnot ⟨l, hl, heq ▸ hT⟩
      rw [Finset.sum_insert fun hmem => hnot ⟨l + 1, hl', hmem⟩, Empty.sum_linkAt fun j hj => ?_, zero_add]
      rw [store_of_ne M w fun h => hCT h.1]
      exact hemptyC j hj
    next => rfl
  have hstore := hlev.sum_linkAt_store (w := w) hl hT hi n
  have hnew : L.linkAt (store M T i w) n l T i = if n = C then 1 else 0 := by
    simp [linkAt, store_self, hw, eq_comm]
  have hbefore : L.linkAt M n l T i = 0 := by simp [linkAt, hold]
  rw [← hsums, hnew, hbefore, Nat.add_zero] at hstore
  exact hstore

omit [DecidableEq I] in
/-- Levels stay apart when tables only disappear. -/
theorem Leveled.mono {M' : N → I → W} (hlev : L.Leveled M roots)
    (hsub : ∀ l' < L.depth, L.tables M' roots l' ⊆ L.tables M roots l') : L.Leveled M' roots :=
  fun a ha b hb n hna hnb => hlev a ha b hb n (hsub a ha hna) (hsub b hb hnb)

/-- Levels stay apart when a fresh table is grafted. -/
theorem Leveled.graft (hlev : L.Leveled M roots) (hl : l < L.depth) (hT : T ∈ L.tables M roots l)
    (hi : i ∈ L.slots) (hold : L.child l i (M T i) = none) {C : N} (hw : L.child l i w = some C)
    (hfresh : l + 1 < L.depth → ¬ L.IsTable M roots C ∧ L.Empty M (l + 1) C) :
    L.Leveled (store M T i w) roots := by
  have htables := hlev.tables_graft hl hT hi hold hw hfresh
  have hread (a : ℕ) (ha : a < L.depth) (n : N) (hn : n ∈ L.tables (store M T i w) roots a) :
      n ∈ L.tables M roots a ∨ a = l + 1 ∧ n = C := by
    rw [htables a ha] at hn
    split at hn
    next hnext => exact (Finset.mem_insert.mp hn).symm.imp_right fun h => ⟨hnext, h⟩
    next => exact Or.inl hn
  intro a ha b hb n hna hnb
  rcases hread a ha n hna with hna | ⟨rfl, rfl⟩
  · rcases hread b hb n hnb with hnb | ⟨rfl, rfl⟩
    · exact hlev a ha b hb n hna hnb
    · exact absurd ⟨a, ha, hna⟩ (hfresh hb).1
  · rcases hread b hb n hnb with hnb | ⟨rfl, -⟩
    · exact absurd ⟨b, hb, hnb⟩ (hfresh ha).1
    · rfl

section Root

variable {M' : N → I → W} {R : N}

omit [DecidableEq I] in
/-- A new root whose links lead to known tables adds no other table. -/
theorem tables_insert_root (hdepth : 1 < L.depth) (hR : ¬ L.IsTable M roots R)
    (hsame : ∀ n, n ≠ R → M' n = M n)
    (hknown : ∀ i ∈ L.slots, ∀ C, L.child 0 i (M' R i) = some C → C ∈ L.tables M roots 1) :
    ∀ l' < L.depth, L.tables M' (insert R roots) l' =
      if l' = 0 then insert R roots else L.tables M roots l' := by
  have hword {l' : ℕ} (hl' : l' < L.depth) {T' : N} (hT' : T' ∈ L.tables M roots l') : M' T' = M T' :=
    hsame T' fun heq => hR ⟨l', hl', heq ▸ hT'⟩
  have hroot {T' : N} (hT' : T' ∈ roots) : M' T' = M T' :=
    hsame T' fun heq => hR ⟨0, by omega, heq ▸ hT'⟩
  have hone : L.tables M' (insert R roots) 1 = L.tables M roots 1 := by
    ext C
    rw [mem_tables_succ, mem_tables_succ]
    constructor
    · rintro ⟨T', hT', j, hj, hchild⟩
      rcases Finset.mem_insert.mp hT' with rfl | hT'
      · exact mem_tables_succ.mp (hknown j hj C hchild)
      · exact ⟨T', hT', j, hj, by rwa [hroot hT'] at hchild⟩
    · rintro ⟨T', hT', j, hj, hchild⟩
      exact ⟨T', Finset.mem_insert_of_mem hT', j, hj, by rwa [hroot hT']⟩
  intro l' hl'
  induction l' with
  | zero => rfl
  | succ l' ih =>
    rw [if_neg (by omega)]
    by_cases hzero : l' = 0
    · subst hzero
      exact hone
    · have hprevious := ih (by omega)
      rw [if_neg hzero] at hprevious
      ext C
      rw [mem_tables_succ, mem_tables_succ, hprevious]
      constructor <;>
      · rintro ⟨T', hT', j, hj, hchild⟩
        exact ⟨T', hT', j, hj, by simpa only [hword (by omega) hT'] using hchild⟩

omit [DecidableEq I] in
/-- A new root adds exactly the links of its own words. -/
theorem linkCount_insert_root (hdepth : 1 < L.depth) (hR : ¬ L.IsTable M roots R)
    (hsame : ∀ n, n ≠ R → M' n = M n)
    (hknown : ∀ i ∈ L.slots, ∀ C, L.child 0 i (M' R i) = some C → C ∈ L.tables M roots 1) (n : N) :
    L.linkCount M' (insert R roots) n =
      L.linkCount M roots n + ∑ i ∈ L.slots, L.linkAt M' n 0 R i := by
  have htables := tables_insert_root hdepth hR hsame hknown
  have hword {l' : ℕ} (hl' : l' < L.depth) {T' : N} (hT' : T' ∈ L.tables M roots l') : M' T' = M T' :=
    hsame T' fun heq => hR ⟨l', hl', heq ▸ hT'⟩
  have hlevel (l' : ℕ) (hl' : l' ∈ Finset.range L.depth) :
      ∑ T' ∈ L.tables M' (insert R roots) l', ∑ i ∈ L.slots, L.linkAt M' n l' T' i =
        ∑ T' ∈ L.tables M roots l', ∑ i ∈ L.slots, L.linkAt M n l' T' i +
          if l' = 0 then ∑ i ∈ L.slots, L.linkAt M' n 0 R i else 0 := by
    have hl' := Finset.mem_range.mp hl'
    have hold : ∑ T' ∈ L.tables M roots l', ∑ i ∈ L.slots, L.linkAt M' n l' T' i =
        ∑ T' ∈ L.tables M roots l', ∑ i ∈ L.slots, L.linkAt M n l' T' i := by
      refine Finset.sum_congr rfl fun T' hT' => Finset.sum_congr rfl fun j _ => ?_
      unfold linkAt
      rw [hword hl' hT']
    rw [htables l' hl']
    split
    next hzero =>
      subst hzero
      have hnot : R ∉ roots := fun hmem => hR ⟨0, hl', hmem⟩
      rw [Finset.sum_insert hnot, Nat.add_comm]
      exact congrArg (· + _) hold
    next => rw [hold, Nat.add_zero]
  unfold linkCount
  rw [Finset.sum_congr rfl hlevel, Finset.sum_add_distrib, Finset.sum_ite_eq',
    if_pos (Finset.mem_range.mpr (by omega))]

omit [DecidableEq I] in
/-- A new root keeps the levels apart. -/
theorem Leveled.insert_root (hlev : L.Leveled M roots) (hdepth : 1 < L.depth) (hR : ¬ L.IsTable M roots R)
    (hsame : ∀ n, n ≠ R → M' n = M n)
    (hknown : ∀ i ∈ L.slots, ∀ C, L.child 0 i (M' R i) = some C → C ∈ L.tables M roots 1) :
    L.Leveled M' (insert R roots) := by
  have htables := tables_insert_root hdepth hR hsame hknown
  have hread (a : ℕ) (ha : a < L.depth) (n : N) (hn : n ∈ L.tables M' (insert R roots) a) :
      n ∈ L.tables M roots a ∨ a = 0 ∧ n = R := by
    rw [htables a ha] at hn
    split at hn
    next hzero =>
      subst hzero
      exact (Finset.mem_insert.mp hn).symm.imp_right fun h => ⟨rfl, h⟩
    next => exact Or.inl hn
  intro a ha b hb n hna hnb
  rcases hread a ha n hna with hna | ⟨hazero, haR⟩
  · rcases hread b hb n hnb with hnb | ⟨hbzero, hbR⟩
    · exact hlev a ha b hb n hna hnb
    · exact absurd ⟨a, ha, hbR ▸ hna⟩ hR
  · rcases hread b hb n hnb with hnb | ⟨hbzero, hbR⟩
    · exact absurd ⟨b, hb, haR ▸ hnb⟩ hR
    · rw [hazero, hbzero]

end Root

end Links

end Cthulhu.Lib
