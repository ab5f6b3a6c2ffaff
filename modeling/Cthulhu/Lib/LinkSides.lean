import Cthulhu.Lib.Links

/-!
# Sides of multi-level tables

The indices of a root are divided into sides, and a table belongs to the side it is reached from.
A tag gives every table below the root its level and its side. Links lead down one level on the
same side, and the words that link may have to meet a condition of their side. Some nodes are
owned by the store; an owned table is linked once, so that it loses its tag with its link.

Tags are ghost state: a graft of an empty table adds one, and a cut of an empty table removes one
unless the table is still linked from elsewhere.
-/

namespace Cthulhu.Lib.Links

variable {N I W S : Type*} [DecidableEq N] [DecidableEq I]

/-- The places of the words that link tables. Those of the root have the side of their index, the
others the side of their table. -/
inductive Upper (L : Links N I W) (R : N) (half : I → S) (tag : N → Option (ℕ × S)) : ℕ → S → N → I → Prop
  | root {i : I} (hl : 1 < L.depth) (hi : i ∈ L.slots) : Upper L R half tag 0 (half i) R i
  | below {l : ℕ} {s : S} {T : N} {i : I} (hT : tag T = some (l + 1, s)) (hl : l + 2 < L.depth)
    (hi : i ∈ L.slots) : Upper L R half tag (l + 1) s T i

/-- The tags follow the links, the linking words meet the condition of their side, and owned tables
are linked from one place only. -/
structure Sided (L : Links N I W) (R : N) (half : I → S) (good : S → W → Prop) (owned : N → Prop)
    (tag : N → Option (ℕ × S)) (M : N → I → W) : Prop where
  root : tag R = none
  link : ∀ {l s T i C}, L.Upper R half tag l s T i → L.child l i (M T i) = some C →
    tag C = some (l + 1, s) ∧ good s (M T i)
  linked : ∀ {l s C}, tag C = some (l, s) → ∃ k T i, l = k + 1 ∧ L.Upper R half tag k s T i ∧
    L.child k i (M T i) = some C
  single : ∀ {l s T i l' s' T' i' C}, owned C → L.Upper R half tag l s T i → L.Upper R half tag l' s' T' i' →
    L.child l i (M T i) = some C → L.child l' i' (M T' i') = some C → T = T' ∧ i = i'

variable {L : Links N I W} {R : N} {half : I → S} {good : S → W → Prop} {owned : N → Prop}
  {tag tag' : N → Option (ℕ × S)} {M M' : N → I → W} {l : ℕ} {s : S} {T C : N} {i : I}

omit [DecidableEq N] [DecidableEq I] in
/-- A place is the root's or that of a tagged table. -/
theorem Upper.table (h : L.Upper R half tag l s T i) : T = R ∨ tag T ≠ none := by
  cases h with
  | root _ _ => exact Or.inl rfl
  | below hT _ _ => exact Or.inr (by simp [hT])

omit [DecidableEq N] [DecidableEq I] in
/-- The index of a place is one of the slots. -/
theorem Upper.mem_slots (h : L.Upper R half tag l s T i) : i ∈ L.slots := by
  cases h with
  | root _ hi => exact hi
  | below _ _ hi => exact hi

omit [DecidableEq N] [DecidableEq I] in
/-- Places are above the last level. -/
theorem Upper.lt_depth (h : L.Upper R half tag l s T i) : l + 1 < L.depth := by
  cases h with
  | root hl _ => exact hl
  | below _ hl _ => exact hl

omit [DecidableEq N] [DecidableEq I] in
/-- Places are taken over by tags that agree on their table. -/
theorem Upper.congr (h : L.Upper R half tag l s T i) (hT : tag' T = tag T) : L.Upper R half tag' l s T i := by
  cases h with
  | root hl hi => exact .root hl hi
  | below hT' hl hi => exact .below (hT.trans hT') hl hi

omit [DecidableEq N] [DecidableEq I] in
/-- A place has one level and one side. -/
theorem Upper.inj {l' : ℕ} {s' : S} (hroot : tag R = none) (h : L.Upper R half tag l s T i)
    (h' : L.Upper R half tag l' s' T i) : l = l' ∧ s = s' := by
  cases h with
  | root hl hi =>
    cases h' with
    | root _ _ => exact ⟨rfl, rfl⟩
    | below hT' _ _ => exact absurd (hroot.symm.trans hT') (by simp)
  | below hT hl hi =>
    cases h' with
    | root _ _ => exact absurd (hroot.symm.trans hT) (by simp)
    | below hT' _ _ => simpa using hT.symm.trans hT'

omit [DecidableEq N] [DecidableEq I] in
/-- A place is in no table of a lower level. -/
theorem Upper.ne_of_tag (hroot : tag R = none) (h : L.Upper R half tag l s T i) {k : ℕ} {s' : S}
    (hC : tag C = some (k, s')) (hlt : l < k) : T ≠ C := by
  rintro rfl
  cases h with
  | root _ _ => exact absurd (hroot.symm.trans hC) (by simp)
  | below hT _ _ =>
    rw [hT, Option.some.injEq, Prod.mk.injEq] at hC
    omega

omit [DecidableEq N] [DecidableEq I] in
/-- The tags depend on the linking words only. -/
theorem Sided.congr (h : L.Sided R half good owned tag M)
    (hsame : ∀ {l s T i}, L.Upper R half tag l s T i → M' T i = M T i) : L.Sided R half good owned tag M' where
  root := h.root
  link := fun hplace hchild => by
    rw [hsame hplace] at hchild ⊢
    exact h.link hplace hchild
  linked := fun htag => by
    obtain ⟨k, T, i, hk, hplace, hchild⟩ := h.linked htag
    exact ⟨k, T, i, hk, hplace, by rwa [hsame hplace]⟩
  single := fun howned hplace hplace' hchild hchild' => by
    rw [hsame hplace] at hchild
    rw [hsame hplace'] at hchild'
    exact h.single howned hplace hplace' hchild hchild'

omit [DecidableEq N] [DecidableEq I] in
/-- Owning less asks for less. -/
theorem Sided.owned_mono {owned' : N → Prop} (h : L.Sided R half good owned tag M) (howned : ∀ C, owned' C → owned C) :
    L.Sided R half good owned' tag M where
  root := h.root
  link := h.link
  linked := h.linked
  single := fun hC => h.single (howned _ hC)

omit [DecidableEq N] [DecidableEq I] in
/-- The table of a place is not the one it links to. -/
theorem Sided.ne_child (h : L.Sided R half good owned tag M) (hplace : L.Upper R half tag l s T i)
    (hchild : L.child l i (M T i) = some C) : T ≠ C :=
  hplace.ne_of_tag h.root (h.link hplace hchild).1 (Nat.lt_succ_self l)

omit [DecidableEq I] in
/-- A tagged node is a table of its level. -/
theorem Sided.mem_tables (h : L.Sided R half good owned tag M) (htag : tag T = some (l, s)) :
    T ∈ L.tables M {R} l := by
  induction l generalizing s T with
  | zero =>
    obtain ⟨k, -, -, hk, -⟩ := h.linked htag
    exact absurd hk (by simp)
  | succ l ih =>
    obtain ⟨k, T', i, hk, hplace, hchild⟩ := h.linked htag
    obtain rfl : l = k := Nat.succ.inj hk
    refine mem_tables_succ.mpr ⟨T', ?_, i, hplace.mem_slots, hchild⟩
    cases hplace with
    | root _ _ => exact Finset.mem_singleton_self _
    | below hT' _ _ => exact ih hT'

section Changes

/-- Only words of the place and of the node `C` differ. -/
def SameOff (T : N) (i : I) (C : N) (M M' : N → I → W) : Prop :=
  ∀ T' j, T' ≠ C → ¬ (T' = T ∧ j = i) → M' T' j = M T' j

/-- A graft of a fresh table that links nothing gives it a tag. -/
theorem Sided.graft (h : L.Sided R half good owned tag M) (hplace : L.Upper R half tag l s T i)
    (hold : L.child l i (M T i) = none) (hnew : L.child l i (M' T i) = some C) (hgood : good s (M' T i))
    (hfresh : tag C = none) (hroot : C ≠ R) (hempty : ∀ k, ∀ j ∈ L.slots, L.child k j (M' C j) = none)
    (hoff : SameOff T i C M M') : L.Sided R half good owned (Function.update tag C (some (l + 1, s))) M' := by
  have hother {D : N} (hD : D ≠ C) : Function.update tag C (some (l + 1, s)) D = tag D := Function.update_of_ne hD _ _
  have hne {k : ℕ} {s' : S} {T' : N} {j : I} (hold : L.Upper R half tag k s' T' j) : T' ≠ C := by
    rintro rfl
    exact hold.table.elim hroot fun htag => htag hfresh
  -- a place that links anything afterwards was a place before
  have hback {k : ℕ} {s' : S} {T' D : N} {j : I}
      (hplace' : L.Upper R half (Function.update tag C (some (l + 1, s))) k s' T' j)
      (hchild : L.child k j (M' T' j) = some D) : L.Upper R half tag k s' T' j := by
    by_cases hT' : T' = C
    · rw [hT', hempty k j hplace'.mem_slots] at hchild
      exact absurd hchild (by simp)
    · exact hplace'.congr (hother hT').symm
  -- it is the new link, or an old one to another table
  have hcases {k : ℕ} {s' : S} {T' D : N} {j : I} (hplace' : L.Upper R half tag k s' T' j)
      (hchild : L.child k j (M' T' j) = some D) :
      (T' = T ∧ j = i ∧ D = C) ∨ (D ≠ C ∧ M' T' j = M T' j ∧ L.child k j (M T' j) = some D) := by
    by_cases hhere : T' = T ∧ j = i
    · obtain ⟨rfl, rfl⟩ := hhere
      obtain ⟨rfl, rfl⟩ := hplace.inj h.root hplace'
      exact Or.inl ⟨rfl, rfl, Option.some.inj (hchild.symm.trans hnew)⟩
    · have hsame := hoff T' j (hne hplace') hhere
      rw [hsame] at hchild
      refine Or.inr ⟨?_, hsame, hchild⟩
      rintro rfl
      exact absurd ((h.link hplace' hchild).1.symm.trans hfresh) (by simp)
  refine ⟨?_, ?_, ?_, ?_⟩
  · rw [hother (Ne.symm hroot), h.root]
  · intro k s' T' j D hplace' hchild
    have hplace₀ := hback hplace' hchild
    rcases hcases hplace₀ hchild with ⟨rfl, rfl, rfl⟩ | ⟨hD, hsame, hchild₀⟩
    · obtain ⟨rfl, rfl⟩ := hplace.inj h.root hplace₀
      exact ⟨Function.update_self _ _ _, hgood⟩
    · rw [hother hD, hsame]
      exact h.link hplace₀ hchild₀
  · intro k s' D htag
    by_cases hD : D = C
    · subst hD
      rw [Function.update_self, Option.some.injEq, Prod.mk.injEq] at htag
      obtain ⟨rfl, rfl⟩ := htag
      exact ⟨l, T, i, rfl, hplace.congr (hother (hne hplace)), hnew⟩
    · rw [hother hD] at htag
      obtain ⟨k', T', j, hk, hplace', hchild⟩ := h.linked htag
      refine ⟨k', T', j, hk, hplace'.congr (hother (hne hplace')), ?_⟩
      rw [hoff T' j (hne hplace') ?_]
      · exact hchild
      · rintro ⟨rfl, rfl⟩
        obtain ⟨rfl, rfl⟩ := hplace.inj h.root hplace'
        exact absurd (hold.symm.trans hchild) (by simp)
  · intro k s' T' j k' s'' T'' j' D howned hplace' hplace'' hchild hchild'
    rcases hcases (hback hplace' hchild) hchild with ⟨rfl, rfl, rfl⟩ | ⟨hD, -, hchild₀⟩
    · rcases hcases (hback hplace'' hchild') hchild' with ⟨rfl, rfl, -⟩ | ⟨hD', -⟩
      · exact ⟨rfl, rfl⟩
      · exact absurd rfl hD'
    · rcases hcases (hback hplace'' hchild') hchild' with ⟨-, -, hC⟩ | ⟨-, -, hchild₀'⟩
      · exact absurd hC hD
      · exact h.single howned (hback hplace' hchild) (hback hplace'' hchild') hchild₀ hchild₀'

omit [DecidableEq N] [DecidableEq I] in
/-- After a cut of a table that links nothing, the links are those from before at other places. -/
theorem Sided.link_cut (h : L.Sided R half good owned tag M) (hplace : L.Upper R half tag l s T i)
    (hnew : L.child l i (M' T i) = none) (hempty : ∀ k, ∀ j ∈ L.slots, L.child k j (M C j) = none)
    (hempty' : ∀ k, ∀ j ∈ L.slots, L.child k j (M' C j) = none) (hoff : SameOff T i C M M') {k : ℕ} {s' : S}
    {T' D : N} {j : I} (hplace' : L.Upper R half tag k s' T' j) :
    L.child k j (M' T' j) = some D ↔
      L.child k j (M T' j) = some D ∧ ¬ (T' = T ∧ j = i) ∧ T' ≠ C ∧ M' T' j = M T' j := by
  constructor
  · intro hchild
    have hT' : T' ≠ C := by
      rintro rfl
      exact absurd ((hempty' k j hplace'.mem_slots).symm.trans hchild) (by simp)
    have hhere : ¬ (T' = T ∧ j = i) := by
      rintro ⟨rfl, rfl⟩
      obtain ⟨rfl, rfl⟩ := hplace.inj h.root hplace'
      exact absurd (hnew.symm.trans hchild) (by simp)
    have hsame := hoff T' j hT' hhere
    rw [hsame] at hchild
    exact ⟨hchild, hhere, hT', hsame⟩
  · rintro ⟨hchild, -, -, hsame⟩
    rwa [hsame]

omit [DecidableEq I] in
/-- A cut of a table that links nothing takes its tag away, unless the table is linked from elsewhere,
which an owned one is not. -/
theorem Sided.cut (h : L.Sided R half good owned tag M) (hplace : L.Upper R half tag l s T i)
    (hold : L.child l i (M T i) = some C) (hnew : L.child l i (M' T i) = none)
    (hempty : ∀ k, ∀ j ∈ L.slots, L.child k j (M C j) = none)
    (hempty' : ∀ k, ∀ j ∈ L.slots, L.child k j (M' C j) = none) (hoff : SameOff T i C M M') :
    ∃ tag', L.Sided R half good owned tag' M' ∧ (∀ D, D ≠ C → tag' D = tag D) ∧ (owned C → tag' C = none) := by
  have hback {k : ℕ} {s' : S} {T' D : N} {j : I} (hplace' : L.Upper R half tag k s' T' j)
      (hchild : L.child k j (M' T' j) = some D) :=
    (h.link_cut hplace hnew hempty hempty' hoff hplace').mp hchild
  have hkeep {k : ℕ} {s' : S} {T' D : N} {j : I} (hplace' : L.Upper R half tag k s' T' j)
      (hchild : L.child k j (M T' j) = some D) (hhere : ¬ (T' = T ∧ j = i)) :
      T' ≠ C ∧ L.child k j (M' T' j) = some D := by
    have hT' : T' ≠ C := by
      rintro rfl
      exact absurd ((hempty k j hplace'.mem_slots).symm.trans hchild) (by simp)
    exact ⟨hT', by rwa [hoff T' j hT' hhere]⟩
  -- the link to another table is at another place
  have hthere {k : ℕ} {s' : S} {T' D : N} {j : I} (hplace' : L.Upper R half tag k s' T' j)
      (hchild : L.child k j (M T' j) = some D) (hD : D ≠ C) : ¬ (T' = T ∧ j = i) := by
    rintro ⟨rfl, rfl⟩
    obtain ⟨rfl, rfl⟩ := hplace.inj h.root hplace'
    exact hD (Option.some.inj (hchild.symm.trans hold))
  by_cases hshared : ∃ k s' T' j, L.Upper R half tag k s' T' j ∧ L.child k j (M T' j) = some C ∧ ¬ (T' = T ∧ j = i)
  · obtain ⟨k₀, s₀, T₀, j₀, hplace₀, hchild₀, hother₀⟩ := hshared
    refine ⟨tag, ⟨h.root, ?_, ?_, ?_⟩, fun _ _ => rfl, fun howned => ?_⟩
    · intro k s' T' j D hplace' hchild
      obtain ⟨hlink, -, -, hsame⟩ := hback hplace' hchild
      rw [hsame]
      exact h.link hplace' hlink
    · intro k s' D htag
      by_cases hD : D = C
      · subst hD
        have hlevel := (h.link hplace₀ hchild₀).1.symm.trans htag
        rw [Option.some.injEq, Prod.mk.injEq] at hlevel
        obtain ⟨rfl, rfl⟩ := hlevel
        exact ⟨k₀, T₀, j₀, rfl, hplace₀, (hkeep hplace₀ hchild₀ hother₀).2⟩
      · obtain ⟨k', T', j, hk, hplace', hchild⟩ := h.linked htag
        exact ⟨k', T', j, hk, hplace', (hkeep hplace' hchild (hthere hplace' hchild hD)).2⟩
    · intro k s' T' j k' s'' T'' j' D howned hplace' hplace'' hchild hchild'
      exact h.single howned hplace' hplace'' (hback hplace' hchild).1 (hback hplace'' hchild').1
    · exact absurd (h.single howned hplace₀ hplace hchild₀ hold) hother₀
  · have hother {D : N} (hD : D ≠ C) : Function.update tag C none D = tag D := Function.update_of_ne hD _ _
    have hbefore {k : ℕ} {s' : S} {T' : N} {j : I} (hplace' : L.Upper R half (Function.update tag C none) k s' T' j) :
        L.Upper R half tag k s' T' j := by
      cases hplace' with
      | root hl hj => exact .root hl hj
      | @below k s' T' j hT' hl hj =>
        have hT : T' ≠ C := by
          rintro rfl
          rw [Function.update_self] at hT'
          exact absurd hT' (by simp)
        exact .below ((hother hT).symm.trans hT') hl hj
    refine ⟨Function.update tag C none, ⟨?_, ?_, ?_, ?_⟩, fun _ => hother, fun _ => Function.update_self _ _ _⟩
    · by_cases hR : R = C
      · rw [hR, Function.update_self]
      · rw [hother hR, h.root]
    · intro k s' T' j D hplace' hchild
      obtain ⟨hlink, hhere, -, hsame⟩ := hback (hbefore hplace') hchild
      have hD : D ≠ C := by
        rintro rfl
        exact hshared ⟨k, s', T', j, hbefore hplace', hlink, hhere⟩
      rw [hother hD, hsame]
      exact h.link (hbefore hplace') hlink
    · intro k s' D htag
      have hD : D ≠ C := by
        rintro rfl
        rw [Function.update_self] at htag
        exact absurd htag (by simp)
      rw [hother hD] at htag
      obtain ⟨k', T', j, hk, hplace', hchild⟩ := h.linked htag
      obtain ⟨hT', hchild'⟩ := hkeep hplace' hchild (hthere hplace' hchild hD)
      exact ⟨k', T', j, hk, hplace'.congr (hother hT'), hchild'⟩
    · intro k s' T' j k' s'' T'' j' D howned hplace' hplace'' hchild hchild'
      exact h.single howned (hbefore hplace') (hbefore hplace'') (hback (hbefore hplace') hchild).1
        (hback (hbefore hplace'') hchild').1

end Changes

section Start

omit [DecidableEq I] in
/-- Where no table has two levels, there is a tag that gives each table its level. -/
theorem Leveled.exists_tag (hlev : L.Leveled M {R}) (s : S) : ∃ tag : N → Option (ℕ × S),
    ∀ T l s', tag T = some (l, s') ↔ s' = s ∧ 0 < l ∧ l < L.depth ∧ T ∈ L.tables M {R} l := by
  classical
  refine ⟨fun T => if h : ∃ l, 0 < l ∧ l < L.depth ∧ T ∈ L.tables M {R} l then some (h.choose, s) else none,
    fun T l s' => ?_⟩
  dsimp only
  by_cases h : ∃ l, 0 < l ∧ l < L.depth ∧ T ∈ L.tables M {R} l
  · obtain ⟨-, hdepth, hmem⟩ := h.choose_spec
    rw [dif_pos h, Option.some.injEq, Prod.mk.injEq]
    constructor
    · rintro ⟨rfl, rfl⟩
      exact ⟨rfl, h.choose_spec⟩
    · rintro ⟨rfl, -, hl, hT⟩
      exact ⟨hlev _ hdepth l hl T hmem hT, rfl⟩
  · rw [dif_neg h]
    constructor
    · exact fun habsurd => absurd habsurd (by simp)
    · rintro ⟨-, hpos, hl, hT⟩
      exact absurd ⟨l, hpos, hl, hT⟩ h

omit [DecidableEq I] in
/-- Tables that are all reached from one side have that side. -/
theorem Leveled.sided (hlev : L.Leveled M {R}) (hdepth : 1 < L.depth) (s : S)
    (hside : ∀ i ∈ L.slots, L.child 0 i (M R i) ≠ none → half i = s) (hgood : ∀ w, good s w)
    (hsingle : ∀ l l', l + 1 < L.depth → l' + 1 < L.depth → ∀ T ∈ L.tables M {R} l, ∀ T' ∈ L.tables M {R} l',
      ∀ i ∈ L.slots, ∀ i' ∈ L.slots, ∀ C, owned C → L.child l i (M T i) = some C →
        L.child l' i' (M T' i') = some C → T = T' ∧ i = i') :
    ∃ tag : N → Option (ℕ × S), L.Sided R half good owned tag M ∧ ∀ T, tag T ≠ none → L.IsTable M {R} T := by
  obtain ⟨tag, htag⟩ := hlev.exists_tag s
  have hmem {l : ℕ} {s' : S} {T : N} {i : I} (hplace : L.Upper R half tag l s' T i) :
      T ∈ L.tables M {R} l ∧ i ∈ L.slots ∧ l + 1 < L.depth := by
    cases hplace with
    | root _ hi => exact ⟨Finset.mem_singleton_self _, hi, hdepth⟩
    | below hT hl hi => exact ⟨((htag _ _ _).mp hT).2.2.2, hi, hl⟩
  refine ⟨tag, ⟨?_, ?_, ?_, ?_⟩, fun T hT => ?_⟩
  · by_contra htagged
    obtain ⟨⟨l, s'⟩, hR⟩ := Option.ne_none_iff_exists'.mp htagged
    obtain ⟨-, hpos, hl, hmemR⟩ := (htag R l s').mp hR
    have hzero := hlev 0 (by omega) l hl R (Finset.mem_singleton_self R) hmemR
    omega
  · intro l s' T i C hplace hchild
    obtain ⟨hT, hi, hl⟩ := hmem hplace
    have hs : s' = s := by
      cases hplace with
      | root _ _ => exact hside i hi (by simp [hchild])
      | below hT' _ _ => exact ((htag _ _ _).mp hT').1
    subst hs
    exact ⟨(htag C (l + 1) s').mpr ⟨rfl, Nat.succ_pos l, hl, mem_tables_succ.mpr ⟨T, hT, i, hi, hchild⟩⟩, hgood _⟩
  · intro l s' C hC
    obtain ⟨rfl, hpos, hl, hC⟩ := (htag C l s').mp hC
    obtain ⟨k, rfl⟩ := Nat.exists_eq_succ_of_ne_zero (Nat.pos_iff_ne_zero.mp hpos)
    obtain ⟨T, hT, i, hi, hchild⟩ := mem_tables_succ.mp hC
    refine ⟨k, T, i, rfl, ?_, hchild⟩
    cases k with
    | zero =>
      obtain rfl : T = R := Finset.mem_singleton.mp hT
      rw [← hside i hi (by simp [hchild])]
      exact .root hdepth hi
    | succ k => exact .below ((htag T (k + 1) s').mpr ⟨rfl, Nat.succ_pos k, by omega, hT⟩) hl hi
  · intro l s' T i l' s'' T' i' C howned hplace hplace' hchild hchild'
    obtain ⟨hT, hi, hl⟩ := hmem hplace
    obtain ⟨hT', hi', hl'⟩ := hmem hplace'
    exact hsingle l l' hl hl' T hT T' hT' i hi i' hi' C howned hchild hchild'
  · obtain ⟨⟨l, s'⟩, hT'⟩ := Option.ne_none_iff_exists'.mp hT
    obtain ⟨-, -, hl, hmemT⟩ := (htag T l s').mp hT'
    exact ⟨l, hl, hmemT⟩

end Start

end Cthulhu.Lib.Links
