import Cthulhu.Memory.LeafEntries

/-!
# How many frames a range of pages needs

A page needs a frame for each table that is missing on the way to its entry, and one for itself
when it is not present; pages share the tables they have in common. Every frame that an allocating
walk or `allocate_frame` takes fills exactly one of these places, so that the free frames and the
frames still needed go down together.
-/

namespace Cthulhu

open Lib

/-- The places of the tables and of the frame of a page, each named by the indices that lead to it. -/
def places (va : ℕ) : List (List ℕ) :=
  [(indices va).take 1, (indices va).take 2, (indices va).take 3, indices va ++ [tableIndex va]]

/-- The places on the way to the pages that hold no table and no frame. -/
def missing (mem : Memory) (cr3 : ℕ) (pages : List ℕ) : Finset (List ℕ) :=
  (pages.flatMap places).toFinset.filter fun q => paging.walk mem 0 (align cr3) q = none

/-- The number of frames that mapping the pages takes. -/
def frameNeed (mem : Memory) (cr3 : ℕ) (pages : List ℕ) : ℕ := (missing mem cr3 pages).card

/-- A place is missing when one of the pages needs it and nothing is there. -/
theorem mem_missing {mem : Memory} {cr3 : ℕ} {pages : List ℕ} {q : List ℕ} :
    q ∈ missing mem cr3 pages ↔ (∃ va ∈ pages, q ∈ places va) ∧ paging.walk mem 0 (align cr3) q = none := by
  unfold missing
  rw [Finset.mem_filter, List.mem_toFinset, List.mem_flatMap]

/-- A place is reached by at most three indices and one more. -/
theorem places_snoc {va : ℕ} {q : List ℕ} (h : q ∈ places va) :
    ∃ r j, q = r ++ [j] ∧ r.length < 4 ∧ ∀ k ∈ r ++ [j], k ∈ paging.slots := by
  have hindices := indices_mem va
  have htable : tableIndex va ∈ paging.slots := Finset.mem_range.mpr (tableIndex_lt va)
  unfold indices at hindices
  simp only [List.forall_mem_cons, List.not_mem_nil, false_imp_iff, implies_true, and_true] at hindices
  unfold places indices at h
  simp only [List.take_succ_cons, List.take_zero, List.mem_cons, List.not_mem_nil, or_false] at h
  rcases h with rfl | rfl | rfl | rfl
  · exact ⟨[], pmlIndex va, rfl, by decide, by simpa using hindices.1⟩
  · exact ⟨[pmlIndex va], directoryPtrIndex va, rfl, by simp, by simpa using ⟨hindices.1, hindices.2.1⟩⟩
  · exact ⟨[pmlIndex va, directoryPtrIndex va], directoryIndex va, rfl, by simp, by simpa using hindices⟩
  · refine ⟨[pmlIndex va, directoryPtrIndex va, directoryIndex va], tableIndex va, rfl, by simp, ?_⟩
    simpa using ⟨hindices.1, hindices.2.1, hindices.2.2, htable⟩

/-- Every place of a page is on the way to its frame. -/
theorem places_prefix {va : ℕ} {q : List ℕ} (h : q ∈ places va) : ∃ rest, q ++ rest = indices va ++ [tableIndex va] := by
  unfold places at h
  simp only [List.mem_cons, List.not_mem_nil, or_false] at h
  rcases h with rfl | rfl | rfl | rfl
  · exact ⟨(indices va).drop 1 ++ [tableIndex va], by rw [← List.append_assoc, List.take_append_drop]⟩
  · exact ⟨(indices va).drop 2 ++ [tableIndex va], by rw [← List.append_assoc, List.take_append_drop]⟩
  · exact ⟨(indices va).drop 3 ++ [tableIndex va], by rw [← List.append_assoc, List.take_append_drop]⟩
  · exact ⟨[], List.append_nil _⟩

section Link

variable {roots : Finset ℕ} {cr3 : ℕ} {m : Machine}

/-- Linking a fresh frame at a place of a page fills that place and no other. -/
theorem OneReference.frameNeed_link (hone : OneReference roots m) (h : Growable roots m) (hcr3 : align cr3 ∈ roots)
    {r : List ℕ} {l T i w f : ℕ} {filled : Memory} (hr : ∀ k ∈ r, k ∈ paging.slots) (hlen : r.length = l) (hl : l < 4)
    (hwalk : paging.walk m.memory 0 (align cr3) r = some T)
    (hold : paging.child l i (m.memory T i) = none) (hw : paging.child l i w = some f)
    (hf : f = (getFreeFrame m.framePool).1) (hne : f ≠ 0) (hoff : ∀ n, n ≠ f → filled n = m.memory n)
    (hclear : l + 1 < 4 → ∀ j < 512, filled f j = 0) {pages : List ℕ}
    (hplace : ∃ va ∈ pages, r ++ [i] ∈ places va) :
    frameNeed (Links.store filled T i w) cr3 pages + 1 = frameNeed m.memory cr3 pages := by
  have hroot : align cr3 ∈ paging.tables m.memory roots 0 := hcr3
  have hnot := (h.fresh hf hne).2
  have hT : T ∈ paging.tables m.memory roots l := by
    have hmem := Links.walk_mem hroot hr hwalk
    rwa [Nat.zero_add, hlen] at hmem
  have hTf : f ≠ T := fun heq => hnot ⟨l, hl, heq ▸ hT⟩
  have hmove {k D : ℕ} (hk : k < 4) (hD : D ∈ paging.tables m.memory roots k) : D ∈ paging.tables filled roots k := by
    rwa [tables_off hnot hoff (by omega)]
  have hsame {path : List ℕ} (hpath : ∀ k ∈ path, k ∈ paging.slots) (hlen : path.length ≤ 4) :
      paging.walk filled 0 (align cr3) path = paging.walk m.memory 0 (align cr3) path :=
    walk_off hnot hoff hroot hpath (by omega)
  have hsingle : ∀ k, k + 1 < paging.depth → ∀ X ∈ paging.tables m.memory roots (k + 1),
      paging.linkCount m.memory roots X ≤ 1 := by
    intro k hk X hX
    have hcount := hone.tables X ⟨k + 1, hk, hX⟩
    unfold references at hcount
    omega
  have hgraft {path : List ℕ} {j : ℕ} (hpath : ∀ k ∈ path ++ [j], k ∈ paging.slots) (hpl : path.length < 4) :
      paging.walk (Links.store filled T i w) 0 (align cr3) (path ++ [j]) =
        if path ++ [j] = r ++ [i] then some f else paging.walk m.memory 0 (align cr3) (path ++ [j]) := by
    have hpath' := (List.forall_mem_append.mp hpath).1
    rw [(leveled_off h.leveled hnot hoff).walk_graft_iff hl (hmove hl hT) (by rw [hoff T hTf.symm]; exact hold) hw hTf
      (fun hdepth j hj => by rw [hclear hdepth j (Finset.mem_range.mp hj), child_zero]) (hmove (by decide) hroot) hpath
      (by rw [Nat.zero_add]; exact hpl), hsame hpath' (by omega), hsame hpath (by rw [List.length_append]; exact hpl)]
    -- only the path of the place ends there
    refine if_congr ⟨fun hboth => ?_, fun heq => ?_⟩ rfl rfl
    · have hD := Links.walk_mem hroot hpath' hboth.1
      rw [Nat.zero_add] at hD
      have hlevel : path.length = l := h.leveled _ hpl l hl T hD hT
      rw [(Links.walk_inj hsingle (hlevel.trans hlen.symm) (l := 0) (by rw [Nat.zero_add]; exact hpl) hroot hroot hpath'
        hr hboth.1 hwalk).2, hboth.2]
    · obtain ⟨hpr, hji⟩ := List.append_inj' heq rfl
      rw [hpr]
      exact ⟨hwalk, List.singleton_injective hji⟩
  have hmem : r ++ [i] ∈ missing m.memory cr3 pages := by
    rw [mem_missing, Links.walk_snoc, hwalk, Option.bind_some, Nat.zero_add, hlen]
    exact ⟨hplace, hold⟩
  have herase : missing (Links.store filled T i w) cr3 pages = (missing m.memory cr3 pages).erase (r ++ [i]) := by
    ext q
    rw [Finset.mem_erase, mem_missing, mem_missing, and_left_comm]
    refine and_congr_right fun ⟨va, hva, hq⟩ => ?_
    obtain ⟨path, j, rfl, hpl, hpath⟩ := places_snoc hq
    rw [hgraft hpath hpl]
    by_cases hhere : path ++ [j] = r ++ [i]
    · rw [if_pos hhere]
      simp [hhere]
    · rw [if_neg hhere]
      exact (and_iff_right hhere).symm
  unfold frameNeed
  rw [herase, Finset.card_erase_add_one hmem]

end Link

/-- The frames taken and the places filled are as many. -/
def Balanced (cr3 : ℕ) (pages : List ℕ) (m a : Machine) : Prop :=
  (freeFrames a.framePool).length + frameNeed m.memory cr3 pages =
    (freeFrames m.framePool).length + frameNeed a.memory cr3 pages

section Balance

variable {roots : Finset ℕ} {cr3 : ℕ} {pages : List ℕ} {m a b : Machine}

/-- Nothing taken and nothing filled. -/
theorem Balanced.same (hpool : a.framePool = m.framePool) (hmem : a.memory = m.memory) : Balanced cr3 pages m a := by
  unfold Balanced
  rw [hpool, hmem]

/-- What is taken and filled in two stages. -/
theorem Balanced.trans (h : Balanced cr3 pages m a) (h' : Balanced cr3 pages a b) : Balanced cr3 pages m b := by
  unfold Balanced at *
  omega

/-- A frame taken and linked at a place of one of the pages. -/
theorem OneReference.balanced_link (hone : OneReference roots m) (h : Growable roots m) (hcr3 : align cr3 ∈ roots)
    {r : List ℕ} {l T i w f : ℕ} {filled : Memory} (hr : ∀ k ∈ r, k ∈ paging.slots) (hlen : r.length = l) (hl : l < 4)
    (hwalk : paging.walk m.memory 0 (align cr3) r = some T)
    (hold : paging.child l i (m.memory T i) = none) (hw : paging.child l i w = some f)
    (hf : f = (getFreeFrame m.framePool).1) (hne : f ≠ 0) (hoff : ∀ n, n ≠ f → filled n = m.memory n)
    (hclear : l + 1 < 4 → ∀ j < 512, filled f j = 0) (hplace : ∃ va ∈ pages, r ++ [i] ∈ places va)
    (hpool : a.framePool = (getFreeFrame m.framePool).2) (hmem : a.memory = Links.store filled T i w) :
    Balanced cr3 pages m a := by
  obtain ⟨-, -, -, -, hfree, -⟩ := h.pool.taken hf hne
  have hneed := hone.frameNeed_link h hcr3 hr hlen hl hwalk hold hw hf hne hoff hclear hplace
  unfold Balanced
  rw [hpool, hmem, hfree, ← hneed, List.length_cons]
  omega

/-- An entry rewritten to lead to the same frame takes nothing and fills nothing. -/
theorem Growable.balanced_rewrite (h : Growable roots m) (hcr3 : align cr3 ∈ roots) {p : Slot} (hp : LeafSlot roots m p)
    {w : ℕ} (hw : paging.child 3 p.index w = paging.child 3 p.index (m.load p)) : Balanced cr3 pages m (m.store p w) := by
  have hmissing : missing (m.store p w).memory cr3 pages = missing m.memory cr3 pages := by
    ext q
    rw [mem_missing, mem_missing]
    refine and_congr_right fun ⟨va, _, hq⟩ => ?_
    obtain ⟨path, j, rfl, hlen, hpath⟩ := places_snoc hq
    rw [Links.walk_congr (show align cr3 ∈ paging.tables m.memory roots 0 from hcr3) hpath fun l _ hl T hT i _ => ?_]
    rw [List.length_append, List.length_singleton] at hl
    exact child_store_same h.leveled (by decide) hp.1 hw l (by omega) T hT i
  unfold Balanced frameNeed
  rw [hmissing]
  rfl

/-- Pages that are present need nothing. -/
theorem frameNeed_of_present {mem : Memory} (h : ∀ va ∈ pages, present (leafEntry mem cr3 va) = true) :
    frameNeed mem cr3 pages = 0 := by
  unfold frameNeed
  rw [Finset.card_eq_zero, Finset.eq_empty_iff_forall_notMem]
  intro q hq
  obtain ⟨⟨va, hva, hplace⟩, hnone⟩ := mem_missing.mp hq
  have hpresent := h va hva
  cases hwalk : paging.walk mem 0 (align cr3) (indices va) with
  | none =>
    rw [leafEntry_of_none hwalk] at hpresent
    exact absurd hpresent (by decide)
  | some pt =>
    rw [leafEntry_of_some hwalk] at hpresent
    have hpage : paging.walk mem 0 (align cr3) (indices va ++ [tableIndex va]) =
        some (frameOf (mem pt (tableIndex va))) := by
      rw [Links.walk_snoc, hwalk, Option.bind_some]
      exact (child_leaf _ _).trans (if_pos hpresent)
    obtain ⟨rest, hrest⟩ := places_prefix hplace
    rw [← hrest] at hpage
    obtain ⟨C, hC, -⟩ := Links.walk_prefix hpage
    rw [hC] at hnone
    exact absurd hnone (by simp)

/-- More pages need as much or more. -/
theorem frameNeed_mono (mem : Memory) (cr3 : ℕ) {pages pages' : List ℕ} (h : ∀ va ∈ pages, va ∈ pages') :
    frameNeed mem cr3 pages ≤ frameNeed mem cr3 pages' := by
  refine Finset.card_le_card fun q hq => ?_
  obtain ⟨⟨va, hva, hplace⟩, hnone⟩ := mem_missing.mp hq
  exact mem_missing.mpr ⟨⟨va, h va hva, hplace⟩, hnone⟩

/-- A page that is not present needs a frame. -/
theorem frameNeed_pos {mem : Memory} {va : ℕ} (hva : va ∈ pages) (h : present (leafEntry mem cr3 va) = false) :
    0 < frameNeed mem cr3 pages := by
  refine Finset.card_pos.mpr ⟨indices va ++ [tableIndex va], mem_missing.mpr ⟨⟨va, hva, by simp [places]⟩, ?_⟩⟩
  rw [Links.walk_snoc]
  cases hwalk : paging.walk mem 0 (align cr3) (indices va) with
  | none => rfl
  | some pt =>
    rw [leafEntry_of_some hwalk] at h
    rw [Option.bind_some]
    exact child_of_not_present h

end Balance

end Cthulhu
