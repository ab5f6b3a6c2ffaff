import Cthulhu.Lib.LinkSides
import Cthulhu.Lib.LinkWalk

/-!
# Walks through tagged tables

A walk from the root passes one tagged table per level. A change of one word, and of one node that
no walk passes through, leaves alone every walk that does not end in that node: the word is on no
other walk. With one link to every node, two walks of one length to the same node are the same.
-/

namespace Cthulhu.Lib.Links

variable {N I W S : Type*} [DecidableEq N] [DecidableEq I]

/-- The node is the root, or has a tag of this level. -/
def AtLevel (R : N) (tag : N → Option (ℕ × S)) (l : ℕ) (T : N) : Prop :=
  (l = 0 ∧ T = R) ∨ 0 < l ∧ ∃ s, tag T = some (l, s)

variable {L : Links N I W} {R R' : N} {half : I → S} {good : S → W → Prop} {owned : N → Prop}
  {tag : N → Option (ℕ × S)} {M M' : N → I → W} {l : ℕ} {T C D : N} {i : I} {path : List I}

omit [DecidableEq N] [DecidableEq I] in
/-- A word of a node above the last level is a place. -/
theorem AtLevel.upper (half : I → S) (h : AtLevel R tag l T) (hl : l + 1 < L.depth) (hi : i ∈ L.slots) :
    ∃ s, L.Upper R half tag l s T i := by
  rcases h with ⟨rfl, rfl⟩ | ⟨hpos, s, htag⟩
  · exact ⟨half i, .root hl hi⟩
  · obtain ⟨k, rfl⟩ := Nat.exists_eq_succ_of_ne_zero (Nat.pos_iff_ne_zero.mp hpos)
    exact ⟨s, .below htag hl hi⟩

omit [DecidableEq N] [DecidableEq I] in
/-- A link leads to the next level. -/
theorem Sided.atLevel_child (h : L.Sided R half good owned tag M) (hT : AtLevel R tag l T) (hl : l + 1 < L.depth)
    (hi : i ∈ L.slots) (hchild : L.child l i (M T i) = some C) : AtLevel R tag (l + 1) C := by
  obtain ⟨s, hplace⟩ := hT.upper half hl hi
  exact Or.inr ⟨Nat.succ_pos l, s, (h.link hplace hchild).1⟩

omit [DecidableEq N] [DecidableEq I] in
/-- A walk goes down one level for each index. -/
theorem Sided.atLevel_walk (h : L.Sided R half good owned tag M) (hT : AtLevel R tag l T)
    (hl : l + path.length < L.depth) (hpath : ∀ i ∈ path, i ∈ L.slots) (hwalk : L.walk M l T path = some D) :
    AtLevel R tag (l + path.length) D := by
  induction path generalizing l T with
  | nil =>
    rw [← Option.some.inj hwalk]
    exact hT
  | cons i path ih =>
    rw [List.forall_mem_cons] at hpath
    rw [List.length_cons] at hl
    cases hchild : L.child l i (M T i) with
    | none =>
      rw [walk_cons_none path hchild] at hwalk
      exact absurd hwalk (by simp)
    | some C =>
      rw [walk_cons_some path hchild] at hwalk
      have hC := h.atLevel_child hT (by omega) hpath.1 hchild
      have hD := ih hC (by omega) hpath.2 hwalk
      rwa [List.length_cons, show l + (path.length + 1) = l + 1 + path.length by omega]

section Change

variable {T₀ : N} {i₀ : I} {l₀ : ℕ} {s₀ : S}

/-- What a graft or a cut changes: one word, which leads nowhere but to the node, and the node itself, through
which no walk passes. -/
structure Confined (L : Links N I W) (R : N) (half : I → S) (tag : N → Option (ℕ × S)) (l₀ : ℕ) (s₀ : S) (T₀ : N)
    (i₀ : I) (C : N) (M M' : N → I → W) : Prop where
  place : L.Upper R half tag l₀ s₀ T₀ i₀
  only : ∀ D, L.child l₀ i₀ (M T₀ i₀) = some D → D = C
  ends : ∀ l s i D, L.Upper R half tag l s C i → L.child l i (M C i) ≠ some D
  off : SameOff T₀ i₀ C M M'

omit [DecidableEq N] [DecidableEq I] in
/-- The first word of a walk to another node is not changed. -/
theorem Sided.word_confined (h : L.Sided R half good owned tag M) (hchange : Confined L R half tag l₀ s₀ T₀ i₀ C M M')
    (hT : AtLevel R tag l T) (hl : l + (path.length + 1) < L.depth) (hpath : ∀ j ∈ i :: path, j ∈ L.slots)
    (hwalk : L.walk M l T (i :: path) = some D) (hD : D ≠ C) : M' T i = M T i := by
  rw [List.forall_mem_cons] at hpath
  obtain ⟨s, hplace⟩ := hT.upper half (by omega) hpath.1
  cases hchild : L.child l i (M T i) with
  | none =>
    rw [walk_cons_none path hchild] at hwalk
    exact absurd hwalk (by simp)
  | some E =>
    apply hchange.off
    · rintro rfl
      exact hchange.ends l s i E hplace hchild
    · rintro ⟨rfl, rfl⟩
      obtain ⟨rfl, rfl⟩ := hplace.inj h.root hchange.place
      obtain rfl : E = C := hchange.only E hchild
      rw [walk_cons_some path hchild] at hwalk
      have hE := h.atLevel_child hT (by omega) hpath.1 hchild
      cases path with
      | nil => exact hD (Option.some.inj hwalk).symm
      | cons j path =>
        rw [List.length_cons] at hl
        rw [List.forall_mem_cons] at hpath
        obtain ⟨s', hnext⟩ := hE.upper half (by omega) hpath.2.1
        cases hnone : L.child (l + 1) j (M E j) with
        | none =>
          rw [walk_cons_none path hnone] at hwalk
          exact absurd hwalk (by simp)
        | some F => exact hchange.ends (l + 1) s' j F hnext hnone

omit [DecidableEq N] [DecidableEq I] in
/-- A walk to another node stays. -/
theorem Sided.walk_confined (h : L.Sided R half good owned tag M) (hchange : Confined L R half tag l₀ s₀ T₀ i₀ C M M')
    (hT : AtLevel R tag l T) (hl : l + path.length < L.depth) (hpath : ∀ j ∈ path, j ∈ L.slots)
    (hwalk : L.walk M l T path = some D) (hD : D ≠ C) : L.walk M' l T path = some D := by
  induction path generalizing l T with
  | nil => exact hwalk
  | cons i path ih =>
    rw [List.length_cons] at hl
    have hword := h.word_confined hchange hT hl hpath hwalk hD
    rw [List.forall_mem_cons] at hpath
    cases hchild : L.child l i (M T i) with
    | none =>
      rw [walk_cons_none path hchild] at hwalk
      exact absurd hwalk (by simp)
    | some E =>
      rw [walk_cons_some path hchild] at hwalk
      rw [walk_cons_some path (by rw [hword]; exact hchild)]
      exact ih (h.atLevel_child hT (by omega) hpath.1 hchild) (by omega) hpath.2 hwalk

end Change

omit [DecidableEq N] [DecidableEq I] in
/-- A walk is determined by its end where every node is linked once. -/
theorem Sided.walk_inj (h : L.Sided R half good owned tag M) (howned : ∀ C, owned C) {path' : List I}
    (hlen : path.length = path'.length) (hl : path.length < L.depth) (hpath : ∀ i ∈ path, i ∈ L.slots)
    (hpath' : ∀ i ∈ path', i ∈ L.slots) (hwalk : L.walk M 0 R path = some D) (hwalk' : L.walk M 0 R path' = some D) :
    path = path' := by
  have hstart : AtLevel R tag 0 R := Or.inl ⟨rfl, rfl⟩
  induction path using List.reverseRecOn generalizing path' D with
  | nil => exact (List.eq_nil_of_length_eq_zero hlen.symm).symm
  | append_singleton path i ih =>
    induction path' using List.reverseRecOn with
    | nil => exact absurd hlen (by simp)
    | append_singleton path' i' _ =>
      rw [List.length_append, List.length_append, List.length_singleton, List.length_singleton] at hlen
      rw [List.length_append, List.length_singleton] at hl
      rw [List.forall_mem_append, List.forall_mem_singleton] at hpath hpath'
      rw [walk_snoc, Option.bind_eq_some_iff] at hwalk hwalk'
      obtain ⟨X, hX, hchild⟩ := hwalk
      obtain ⟨X', hX', hchild'⟩ := hwalk'
      obtain ⟨s, hplace⟩ := (h.atLevel_walk hstart (by omega) hpath.1 hX).upper half (by omega) hpath.2
      obtain ⟨s', hplace'⟩ := (h.atLevel_walk hstart (by omega) hpath'.1 hX').upper half (by omega) hpath'.2
      obtain ⟨rfl, rfl⟩ := h.single (howned D) hplace hplace' hchild hchild'
      rw [ih (by omega) (by omega) hpath.1 hpath'.1 hX hX']

omit [DecidableEq N] [DecidableEq I] in
/-- Walks depend on the links only. -/
theorem walk_congr_links (hsame : ∀ l T i, L.child l i (M' T i) = L.child l i (M T i)) (l : ℕ) (T : N) (path : List I) :
    L.walk M' l T path = L.walk M l T path := by
  induction path generalizing l T with
  | nil => rfl
  | cons i path ih =>
    rw [walk, walk, hsame l T i]
    congr 1
    funext C
    exact ih (l + 1) C

omit [DecidableEq N] [DecidableEq I] in
/-- So do the tags, where no word has to meet a condition. -/
theorem Sided.congr_links (h : L.Sided R half good owned tag M) (hgood : ∀ s w, good s w)
    (hsame : ∀ l T i, L.child l i (M' T i) = L.child l i (M T i)) : L.Sided R half good owned tag M' where
  root := h.root
  link := fun hplace hchild => ⟨(h.link hplace (by rwa [hsame] at hchild)).1, hgood _ _⟩
  linked := fun htag => by
    obtain ⟨k, T, i, hk, hplace, hchild⟩ := h.linked htag
    exact ⟨k, T, i, hk, hplace, by rwa [hsame]⟩
  single := fun howned hplace hplace' hchild hchild' =>
    h.single howned hplace hplace' (by rwa [hsame] at hchild) (by rwa [hsame] at hchild')

omit [DecidableEq N] [DecidableEq I] in
/-- The tags hold below another root whose words link to the same tables. -/
theorem Sided.reroot (h : L.Sided R half good owned tag M) (hgood : ∀ s w, good s w) (hroot : tag R' = none)
    (hsame : ∀ i ∈ L.slots, L.child 0 i (M R' i) = L.child 0 i (M R i)) : L.Sided R' half good owned tag M := by
  -- a place of the one root is a place of the other, with the same link
  have hplace {A B : N} (hAB : ∀ i ∈ L.slots, L.child 0 i (M B i) = L.child 0 i (M A i)) {l : ℕ} {s : S} {T : N} {i : I}
      (h : L.Upper A half tag l s T i) : ∃ T', L.Upper B half tag l s T' i ∧
        L.child l i (M T' i) = L.child l i (M T i) ∧ (T' = T ∨ T = A ∧ T' = B ∧ l = 0) := by
    cases h with
    | root hl hi => exact ⟨B, .root hl hi, hAB i hi, Or.inr ⟨rfl, rfl, rfl⟩⟩
    | below hT hl hi => exact ⟨_, .below hT hl hi, rfl, Or.inl rfl⟩
  refine ⟨hroot, ?_, ?_, ?_⟩
  · intro l s T i C hplace' hchild
    obtain ⟨T', hback, hlink, -⟩ := hplace (fun i hi => (hsame i hi).symm) hplace'
    exact ⟨(h.link hback (hlink.trans hchild)).1, hgood _ _⟩
  · intro l s C htag
    obtain ⟨k, T, i, hk, hplace', hchild⟩ := h.linked htag
    obtain ⟨T', hnew, hlink, -⟩ := hplace hsame hplace'
    exact ⟨k, T', i, hk, hnew, hlink.trans hchild⟩
  · intro l s T i l' s' T' i' C howned hplace₁ hplace₂ hchild₁ hchild₂
    obtain ⟨T₁, hback₁, hlink₁, hcase₁⟩ := hplace (fun i hi => (hsame i hi).symm) hplace₁
    obtain ⟨T₂, hback₂, hlink₂, hcase₂⟩ := hplace (fun i hi => (hsame i hi).symm) hplace₂
    obtain ⟨hT, hi⟩ := h.single howned hback₁ hback₂ (hlink₁.trans hchild₁) (hlink₂.trans hchild₂)
    obtain ⟨rfl, -⟩ := hback₁.inj h.root (hT ▸ hi ▸ hback₂)
    refine ⟨?_, hi⟩
    cases hplace₁ with
    | root _ _ =>
      cases hplace₂ with
      | root _ _ => rfl
    | below _ _ _ =>
      rcases hcase₁ with rfl | ⟨-, -, hzero⟩
      · rcases hcase₂ with rfl | ⟨-, -, hzero⟩
        · exact hT
        · exact absurd hzero (Nat.succ_ne_zero _)
      · exact absurd hzero (Nat.succ_ne_zero _)

end Cthulhu.Lib.Links
