import Cthulhu.Lib.LinkOwners
import Cthulhu.Memory.ReferenceRuns
import Cthulhu.Memory.LeafEntries

/-!
# Address spaces kept apart

The tables of the user half are frames of the pool, and a frame of the pool has no more than one
reference. So a table of the user half belongs to one root, and what a call does to the tables and pages of
one root is not seen in the user half of another.

Every change of the paging interface is followed for both: the owners of tables and frames stay
single, and the user entries of the other roots stay what they are.
-/

namespace Cthulhu

open Lib

/-- Right counts, and one owner for every table of the user half and every frame. -/
structure Isolated (side : ℕ → Prop) (roots : Finset ℕ) (m : Machine) : Prop where
  counted : Counted roots m
  owners : paging.SideOwned side (IsFrame m.framePool) m.memory roots

/-- The user entries of every root but one are the same. -/
def Elsewhere (side : ℕ → Prop) (roots : Finset ℕ) (R : ℕ) (m m' : Machine) : Prop :=
  ∀ cr3, align cr3 ∈ roots → align cr3 ≠ R → ∀ va, side (pmlIndex va) →
    leafEntry m'.memory cr3 va = leafEntry m.memory cr3 va

/-- A change on behalf of one root: owners stay single, and the other roots see nothing of it. -/
structure Within (side : ℕ → Prop) (roots : Finset ℕ) (R : ℕ) (m m' : Machine) : Prop where
  isolated : Isolated side roots m'
  elsewhere : Elsewhere side roots R m m'

section Owners

variable {side : ℕ → Prop} {roots roots' : Finset ℕ} {m m' : Machine} {R : ℕ}

/-- The way to a user page starts in the user half. -/
theorem sidePath_indices {va : ℕ} (hva : side (pmlIndex va)) : paging.SidePath side (indices va) where
  slots := indices_mem va
  head := fun i hi => by
    obtain rfl : pmlIndex va = i := by simpa [indices] using hi
    exact hva

/-- The owners after a change with right counts: every user link above the leaves was there before, or it
leads to a frame of the pool, and no use count went above one. -/
theorem Isolated.next (h : Isolated side roots m) (hcounted : Counted roots' m')
    (hlayout : m'.framePool.map SectionInfo.layout = m.framePool.map SectionInfo.layout)
    (hchild : ∀ l < 3, ∀ T ∈ paging.tables m'.memory roots' l, ∀ i < 512, (l = 0 → side i) → ∀ C,
      paging.child l i (m'.memory T i) = some C →
        IsFrame m.framePool C ∨ T ∈ paging.tables m.memory roots l ∧ paging.child l i (m.memory T i) = some C)
    (hused : ∀ f, IsFrame m.framePool f → usageCount m'.framePool f ≤ 1) : Isolated side roots' m' := by
  have hframes : IsFrame m'.framePool = IsFrame m.framePool := funext fun f => propext (isFrame_congr hlayout f)
  refine ⟨hcounted, ?_⟩
  rw [hframes]
  refine h.owners.next (fun l hl T hT i hi hside C hC => ?_) fun f hf => ?_
  · exact hchild l (Nat.lt_of_succ_lt_succ hl) T hT i (Finset.mem_range.mp hi) hside C hC
  · have hcount := hcounted.counted f ((isFrame_congr hlayout f).mpr hf)
    have hone := hused f hf
    unfold references at hcount
    omega

/-- No frame of the pool is used twice. -/
theorem Isolated.usage_le (h : Isolated side roots m) {f : ℕ} (hf : IsFrame m.framePool f) : usageCount m.framePool f ≤ 1 := by
  rw [h.counted.counted f hf]
  exact h.owners.single f hf

/-- A change of neither the pool nor the memory keeps the owners. -/
theorem Isolated.same (h : Isolated side roots m) (hpool : m'.framePool = m.framePool) (hmem : m'.memory = m.memory) :
    Isolated side roots m' := by
  refine h.next (h.counted.same hpool hmem) (by rw [hpool]) (fun l _ T hT i _ _ C hC => Or.inr ?_) fun f hf => ?_
  · rw [hmem] at hT hC
    exact ⟨hT, hC⟩
  · rw [hpool]
    exact h.usage_le hf

/-- Nothing changes for anybody. -/
theorem Elsewhere.same (hmem : m'.memory = m.memory) : Elsewhere side roots R m m' :=
  fun _ _ _ _ _ => by rw [hmem]

/-- Changes on behalf of one root follow each other. -/
theorem Elsewhere.trans {m'' : Machine} (h : Elsewhere side roots R m m') (h' : Elsewhere side roots R m' m'') :
    Elsewhere side roots R m m'' := by
  intro cr3 hcr3 hother va hva
  rw [h' cr3 hcr3 hother va hva, h cr3 hcr3 hother va hva]

/-- A change of neither the pool nor the memory. -/
theorem Isolated.within (h : Isolated side roots m) (hpool : m'.framePool = m.framePool) (hmem : m'.memory = m.memory) :
    Within side roots R m m' :=
  ⟨h.same hpool hmem, .same hmem⟩

/-- Changes on behalf of one root follow each other. -/
theorem Within.trans {m'' : Machine} (h : Within side roots R m m') (h' : Within side roots R m' m'') : Within side roots R m m'' :=
  ⟨h'.isolated, h.elsewhere.trans h'.elsewhere⟩

/-- A change of neither the pool nor the memory adds nothing. -/
theorem Within.same {m'' : Machine} (h : Within side roots R m m') (hpool : m''.framePool = m'.framePool)
    (hmem : m''.memory = m'.memory) : Within side roots R m m'' :=
  h.trans (h.isolated.within hpool hmem)

/-- A table or frame of the user half of one root is on no walk of another. -/
theorem Isolated.walk_inj (h : Isolated side roots m) {R R' D : ℕ} {path path' : List ℕ} (hR : R ∈ roots) (hR' : R' ∈ roots)
    (hlen : path.length = path'.length) (hdepth : path.length < 4) (hpath : ∀ i ∈ path, i ∈ paging.slots)
    (hpath' : paging.SidePath side path') (hwalk : paging.walk m.memory 0 R path = some D)
    (hwalk' : paging.walk m.memory 0 R' path' = some D) : R = R' ∧ path = path' := by
  refine h.owners.walk_inj hR hR' hlen (Nat.le_of_lt hdepth) hpath hpath' hwalk hwalk' fun hpos => ?_
  exact h.owners.walk_owned hR' hpath' (hlen ▸ hdepth) hwalk' (hlen ▸ hpos)

/-- The leaf table of a page is not in the user half of another root. -/
theorem Isolated.not_user (h : Isolated side roots m) {cr3 va pt R' : ℕ} (hcr3 : align cr3 ∈ roots) (hR' : R' ∈ roots)
    (hother : R' ≠ align cr3) (hwalk : paging.walk m.memory 0 (align cr3) (indices va) = some pt) :
    ∀ q, paging.SidePath side q → q.length = 3 → paging.walk m.memory 0 R' q ≠ some pt := by
  intro q hq hlen hwalk'
  have hsame := h.walk_inj hcr3 hR' (show (indices va).length = q.length from hlen.symm)
    (show 3 < 4 by decide) (indices_mem va) hq hwalk hwalk'
  exact hother hsame.1.symm

end Owners

section Links

variable {side : ℕ → Prop} {roots : Finset ℕ} {m m' : Machine} {R l f w : ℕ} {p : Slot} {filled : Memory}

/-- Linking a fresh frame keeps the owners single. -/
theorem Isolated.takeLink (h : Isolated side roots m) (hl : l < 4) (hT : p.table ∈ paging.tables m.memory roots l)
    (hi : p.index < 512) (hold : paging.child l p.index (m.load p) = none) (hw : paging.child l p.index w = some f)
    (hf : f = (getFreeFrame m.framePool).1) (hne : f ≠ 0) (hoff : ∀ n, n ≠ f → filled n = m.memory n)
    (hclear : l + 1 < 4 → ∀ j < 512, filled f j = 0) (hpool : m'.framePool = (getFreeFrame m.framePool).2)
    (hmem : m'.memory = Links.store filled p.table p.index w) : Isolated side roots m' := by
  have hgrowable := h.counted.growable
  obtain ⟨hframe, -, -, hlayout, -, husage⟩ := h.counted.pool.taken hf hne
  obtain ⟨hzero, hnot⟩ := hgrowable.fresh hf hne
  obtain ⟨-, htables, -⟩ := hgrowable.link_effect hl hT hi hold hw hf hne hoff hclear
  have hcounted := h.counted.takeLink hl hT hi hold hw hf hne hoff hclear hpool hmem
  refine h.next hcounted (by rw [hpool, hlayout]) (fun k hk T hT' i hi' _ C hC => ?_) fun g hg => ?_
  · rw [hmem, htables k (Nat.lt_succ_of_lt hk)] at hT'
    rw [hmem] at hC
    by_cases hhere : T = p.table ∧ i = p.index
    · -- the word that was written leads to the new frame, whatever the level it is read at
      obtain ⟨rfl, rfl⟩ := hhere
      have hTk : p.table ∈ paging.tables m'.memory roots k := by
        rw [hmem, htables k (Nat.lt_succ_of_lt hk)]
        exact hT'
      have hTl : p.table ∈ paging.tables m'.memory roots l := by
        rw [hmem, htables l hl, if_neg (by omega)]
        exact hT
      obtain rfl : k = l := hcounted.leveled k (Nat.lt_succ_of_lt hk) l hl _ hTk hTl
      rw [Links.store_self, hw] at hC
      exact Or.inl (Option.some.inj hC ▸ hframe)
    · rw [Links.store_of_ne filled w hhere] at hC
      by_cases hnew : k = l + 1
      · rw [if_pos hnew] at hT'
        rcases Finset.mem_insert.mp hT' with hTf | hTold
        · rw [hTf, hclear (by omega) i hi', child_zero] at hC
          exact absurd hC (by simp)
        · rw [hoff T fun hTf => hnot ⟨k, Nat.lt_succ_of_lt hk, hTf ▸ hTold⟩] at hC
          exact Or.inr ⟨hTold, hC⟩
      · rw [if_neg hnew] at hT'
        rw [hoff T fun hTf => hnot ⟨k, Nat.lt_succ_of_lt hk, hTf ▸ hT'⟩] at hC
        exact Or.inr ⟨hT', hC⟩
  · rw [hpool, husage g hg]
    split
    · exact Nat.le_refl 1
    · exact h.usage_le hg

/-- A walk that allocates changes no entry of any root, and keeps the owners single. -/
theorem Isolated.grown (h : Isolated side roots m) (hgrown : Grown roots m m') : Within side roots R m m' := by
  have hisolated := (Grown.invariant (Isolated side roots) (fun a b _ hgrow ha => ?_) h.counted.growable hgrown h).2
  · exact ⟨hisolated, fun cr3 hcr3 _ va _ => hgrown.leafEntry h.counted.growable hcr3 va⟩
  · cases hgrow with
    | same hpool hmem => exact ha.same hpool hmem
    | table l p w f hl hT hi hold hw hf hne hpool hmem =>
      exact ha.takeLink (Nat.lt_succ_of_lt hl) hT hi hold hw hf hne (cleared_off a.memory f)
        (fun _ j _ => by rw [Function.update_self]) hpool hmem

/-- Writing a leaf entry with right counts keeps the owners single. -/
theorem Isolated.storeLeaf (h : Isolated side roots m) (hp : LeafSlot roots m p) (hcounted : Counted roots (m.store p w)) :
    Isolated side roots (m.store p w) := by
  obtain ⟨htables, hwords⟩ := h.counted.growable.tables_leafStore hp (fun _ _ _ _ => rfl) w
  refine h.next hcounted rfl (fun k hk T hT i _ _ C hC => Or.inr ?_) fun f hf => h.usage_le hf
  have hT' : T ∈ paging.tables m.memory roots k := htables k (Nat.lt_succ_of_lt hk) ▸ hT
  have hword : (m.store p w).memory T i = m.memory T i := congrFun (hwords k hk T hT') i
  rw [hword] at hC
  exact ⟨hT', hC⟩

/-- Writing a leaf entry of one root is not seen in the user half of another. -/
theorem Isolated.elsewhere_store (h : Isolated side roots m) {cr3 va pt i : ℕ} (hcr3 : align cr3 ∈ roots)
    (hwalk : paging.walk m.memory 0 (align cr3) (indices va) = some pt) (hi : i < 512)
    (hagree : ∀ l < 4, ∀ T ∈ paging.tables m.memory roots l, filled T = m.memory T)
    (hmem : m'.memory = Links.store filled pt i w) : Elsewhere side roots (align cr3) m m' := by
  intro cr3' hcr3' hother va' hva'
  have hpt := Links.walk_mem (show align cr3 ∈ paging.tables m.memory roots 0 from hcr3) (indices_mem va) hwalk
  rw [hmem, h.counted.growable.leafEntry_store (p := ⟨pt, i⟩) ⟨hpt, hi⟩ hagree w hcr3' va', if_neg]
  intro hhere
  exact h.not_user hcr3 hcr3' hother hwalk _ (sidePath_indices hva') rfl hhere.1

end Links

section Cuts

variable {side : ℕ → Prop} {roots : Finset ℕ} {m m' : Machine} {l f T : ℕ} {e : Slot} {cr3 : ℕ}

/-- Cutting a link with right counts keeps the owners single. -/
theorem Isolated.cut (h : Isolated side roots m) (hcut : Cut roots l e f m m') (hcounted : Counted roots m') :
    Isolated side roots m' := by
  refine h.next hcounted hcut.layout (fun k hk T hT' i hi _ C hC => Or.inr ?_) fun g hg => ?_
  · have hold := hcut.sub k (Nat.lt_succ_of_lt hk) hT'
    refine ⟨hold, ?_⟩
    by_cases hhere : T = e.table ∧ i = e.index
    · have hzero : m'.memory e.table e.index = 0 := hcut.cleared
      rw [hhere.1, hhere.2, hzero, child_zero] at hC
      exact absurd hC (by simp)
    · rwa [hcut.words k (Nat.lt_succ_of_lt hk) T hT' i hhere] at hC
  · have hdrop := hcut.references g
    have hone := h.owners.single g hg
    rw [hcounted.counted g ((isFrame_congr hcut.layout g).mpr hg)]
    change references m.memory roots g ≤ 1 at hone
    omega

/-- Dropping empty tables keeps the owners single. -/
theorem Cascade.isolated (hcascade : Cascade Eq roots l T m m') (h : Isolated side roots m) : Isolated side roots m' := by
  induction hcascade with
  | keep => exact h
  | root => exact h
  | drop hl hT hi hlink hclear hcounted hcut hrest ih => exact ih (h.cut hcut hcounted)

/-- A cut outside the user half of a root leaves its walks as they are. -/
theorem Cut.walk_user {R' : ℕ} (hcut : Cut roots l e f m m') (h : Counted roots m) (hl : l < 4)
    (hT : e.table ∈ paging.tables m.memory roots l) (hR' : R' ∈ roots)
    (hplace : ∀ q, q.length = l → paging.walk m.memory 0 R' q = some e.table →
      ¬ paging.SidePath side (q ++ [e.index]))
    (hgone : ∀ q, q.length = l + 1 → paging.SidePath side q → q.length < 4 → paging.walk m.memory 0 R' q ≠ some f)
    {path : List ℕ} (hpath : paging.SidePath side path) (hlen : path.length < 4) :
    paging.walk m'.memory 0 R' path = paging.walk m.memory 0 R' path ∧
      ∀ D, paging.walk m.memory 0 R' path = some D → ∀ i, paging.SidePath side (path ++ [i]) →
        m'.memory D i = m.memory D i := by
  have hword (q : List ℕ) (D i : ℕ) (hq : q.length < 4) (hwalk : paging.walk m.memory 0 R' q = some D)
      (hside : paging.SidePath side (q ++ [i])) : m'.memory D i = m.memory D i := by
    have hfirst := (Links.sidePath_snoc.mp hside).1
    have hD := Links.walk_mem (show R' ∈ paging.tables m.memory roots 0 from hR') hfirst.slots hwalk
    rw [Nat.zero_add] at hD
    have hkept : D ∈ paging.tables m'.memory roots q.length := by
      refine (hcut.keep q.length hq D hD).resolve_right ?_
      rintro ⟨hlevel, rfl⟩
      exact hgone q hlevel hfirst hq hwalk
    refine hcut.words q.length hq D hkept i ?_
    rintro ⟨rfl, rfl⟩
    exact hplace q (h.leveled q.length hq l hl _ hD hT) hwalk hside
  refine ⟨Links.walk_side_congr (fun q D i hwalk hside hq => ?_) hpath, fun D hwalk i hside => ?_⟩
  · rw [hword q D i (by omega) hwalk hside]
  · exact hword path D i hlen hwalk hside

/-- A cut outside the user half of a root leaves its user entries as they are. -/
theorem Cut.leafEntry_user (hcut : Cut roots l e f m m') (h : Counted roots m) (hl : l < 4)
    (hT : e.table ∈ paging.tables m.memory roots l) (hcr3 : align cr3 ∈ roots)
    (hplace : ∀ q, q.length = l → paging.walk m.memory 0 (align cr3) q = some e.table →
      ¬ paging.SidePath side (q ++ [e.index]))
    (hgone : ∀ q, q.length = l + 1 → paging.SidePath side q → q.length < 4 →
      paging.walk m.memory 0 (align cr3) q ≠ some f)
    {va : ℕ} (hva : side (pmlIndex va)) : leafEntry m'.memory cr3 va = Cthulhu.leafEntry m.memory cr3 va := by
  have hpath := sidePath_indices hva
  obtain ⟨hwalk, hword⟩ := hcut.walk_user h hl hT hcr3 hplace hgone hpath (show 3 < 4 by decide)
  unfold Cthulhu.leafEntry
  rw [hwalk]
  cases hpt : paging.walk m.memory 0 (align cr3) (indices va) with
  | none => rfl
  | some pt =>
    refine hword pt hpt _ (Links.sidePath_snoc.mpr ⟨hpath, ?_, fun hnil => absurd hnil (by simp [indices])⟩)
    exact Finset.mem_range.mpr (tableIndex_lt va)

/-- Dropping empty tables from a table outside the user half of a root on leaves its user entries as they are. -/
theorem Cascade.leafEntry_user (hcascade : Cascade Eq roots l T m m') (h : Counted roots m) (hcr3 : align cr3 ∈ roots)
    (hapart : 0 < l → ∀ q, paging.SidePath side q → q.length = l → paging.walk m.memory 0 (align cr3) q ≠ some T)
    {va : ℕ} (hva : side (pmlIndex va)) : leafEntry m'.memory cr3 va = Cthulhu.leafEntry m.memory cr3 va := by
  induction hcascade with
  | keep => rfl
  | root => rfl
  | @drop l T e m m₁ m₂ hl hT hi hlink hclear hcounted hcut hrest ih =>
    have hapart := hapart (Nat.succ_pos l)
    -- a way to the entry that is cut would be a way to the table below it
    have hplace (q : List ℕ) (hq : q.length = l) (hwalk : paging.walk m.memory 0 (align cr3) q = some e.table) :
        ¬ paging.SidePath side (q ++ [e.index]) := by
      intro hside
      refine hapart (q ++ [e.index]) hside (by rw [List.length_append, hq, List.length_singleton]) ?_
      rw [Links.walk_snoc, hwalk, Option.bind_some, hq, Nat.zero_add]
      exact hlink
    have hgone (q : List ℕ) (hq : q.length = l + 1) (hside : paging.SidePath side q) (_ : q.length < 4) :=
      hapart q hside hq
    rw [ih hcounted (fun hpos q hside hq hwalk => ?_), hcut.leafEntry_user h (by omega) hT hcr3 hplace hgone hva]
    rw [(hcut.walk_user h (by omega) hT hcr3 hplace hgone hside (by omega)).1] at hwalk
    refine hplace q hq hwalk (Links.sidePath_snoc.mpr ⟨hside, Finset.mem_range.mpr hi, fun hnil => ?_⟩)
    omega

/-- Giving back the tables above a leaf table of one root is not seen in the user half of another. -/
theorem Isolated.cascade {va pt : ℕ} (h : Isolated side roots m) (hcr3 : align cr3 ∈ roots)
    (hwalk : paging.walk m.memory 0 (align cr3) (indices va) = some pt) (hcascade : Cascade Eq roots 3 pt m m') :
    Within side roots (align cr3) m m' := by
  refine ⟨hcascade.isolated h, fun cr3' hcr3' hother va' hva' => ?_⟩
  exact hcascade.leafEntry_user h.counted hcr3' (fun _ => h.not_user hcr3 hcr3' hother hwalk) hva'

/-- What `deallocate_frame` does for a page of one root is not seen in the user half of another. -/
theorem Isolated.removal {va : ℕ} (h : Isolated side roots m) (hcr3 : align cr3 ∈ roots)
    (hremoval : Removal Eq roots cr3 va m m') : Within side roots (align cr3) m m' := by
  cases hremoval with
  | absent habsent hsame =>
    rw [hsame]
    exact h.within rfl rfl
  | cleared pt f m₁ hwalk hpresent hcut hcounted hcascade =>
    have hpt := Links.walk_mem (show align cr3 ∈ paging.tables m.memory roots 0 from hcr3) (indices_mem va) hwalk
    have hcleared : Within side roots (align cr3) m m₁ := by
      refine ⟨h.cut hcut hcounted, fun cr3' hcr3' hother va' hva' => ?_⟩
      refine hcut.leafEntry_user h.counted (by decide) hpt hcr3' (fun q hq hwalk' hside => ?_)
        (fun q hq _ hlt => absurd hlt (by omega)) hva'
      exact h.not_user hcr3 hcr3' hother hwalk q (Links.sidePath_snoc.mp hside).1 hq hwalk'
    have hwalk₁ := (hcut.keepsAbove (by decide)).walk_eq h.counted.leveled hpt hcr3 va
    rw [hwalk] at hwalk₁
    exact hcleared.trans (hcleared.isolated.cascade hcr3 hwalk₁ hcascade)

end Cuts

end Cthulhu
