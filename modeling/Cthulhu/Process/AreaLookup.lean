import Cthulhu.Process.AreaOrder

/-!
# Looking up an area

`mmap_area` goes through the sorted list and stops at the first area that ends behind the address. Its caller
`proc_dealloc_direct` reads the link that it returns before it asks whether there is one.
-/

namespace Cthulhu

/-- The address is in the area. -/
def MmapArea.Holds (a : MmapArea) (address : ℕ) : Prop := a.vastart ≤ address ∧ address < a.vaend

instance (a : MmapArea) (address : ℕ) : Decidable (a.Holds address) := inferInstanceAs (Decidable (_ ∧ _))

/-- `mmap_area`: the place in the list that the link leads to, or `NULL`. -/
def mmapArea (address : ℕ) : List MmapArea → Option ℕ
  | [] => none
  | mmap :: rest =>
    if address ≥ mmap.vaend then (mmapArea address rest).map (· + 1)
    else if address ≤ mmap.vaend ∧ mmap.vastart ≤ address then some 0
    else none

/-- `proc_dealloc_direct`. Through `NULL` there is nothing to read. -/
def ProcessSpace.procDeallocDirect (ps : ProcessSpace) (pml4 mem : ℕ) : Option ProcessSpace := do
  let link ← mmapArea mem ps.areas
  match ps.areas[link]? with
  | some _ => some (ps.freeMmapArea pml4 link).1
  | none => some ps

/-- What lookup and removal are for: the link to the one area that holds the address, `NULL` without one, that area removed,
and nothing changed without one. -/
structure AreaLookup (ps : ProcessSpace) (pml4 address : ℕ) : Prop where
  found : ∀ before a after, ps.areas = before ++ a :: after → a.Holds address →
    mmapArea address ps.areas = some before.length ∧ ∀ b ∈ before ++ after, ¬ b.Holds address
  missing : (∀ a ∈ ps.areas, ¬ a.Holds address) → mmapArea address ps.areas = none
  removed : ∀ before a after, ps.areas = before ++ a :: after → a.Holds address →
    ps.procDeallocDirect pml4 address = some (ps.freeMmapArea pml4 before.length).1 ∧
      (ps.freeMmapArea pml4 before.length).1.areas = before ++ after
  unchanged : (∀ a ∈ ps.areas, ¬ a.Holds address) → ps.procDeallocDirect pml4 address = some ps

variable {address : ℕ} {areas before after : List MmapArea} {a : MmapArea}

/-- The areas that end at the address or below are gone through. -/
theorem mmapArea_append (hbefore : ∀ b ∈ before, b.vaend ≤ address) :
    mmapArea address (before ++ areas) = (mmapArea address areas).map (· + before.length) := by
  induction before with
  | nil => simp
  | cons b before ih =>
    have hrest := ih fun c hc => hbefore c (List.mem_cons_of_mem b hc)
    rw [List.cons_append, mmapArea, if_pos (hbefore b List.mem_cons_self), hrest, Option.map_map]
    congr 1

/-- The area that holds the address is found behind those below it. -/
theorem mmapArea_found (hsorted : SortedAreas (before ++ a :: after)) (ha : a.Holds address) :
    mmapArea address (before ++ a :: after) = some before.length := by
  obtain ⟨-, -, hbelow, -⟩ := sortedAreas_append_cons.mp hsorted
  have hskipped : ∀ b ∈ before, b.vaend ≤ address := fun b hb => Nat.le_trans (hbelow b hb) ha.1
  rw [mmapArea_append hskipped, mmapArea, if_neg (Nat.not_le.mpr ha.2), if_pos ⟨Nat.le_of_lt ha.2, ha.1⟩, Option.map_some,
    Nat.zero_add]

/-- What is found holds the address. -/
theorem holds_of_mmapArea {k : ℕ} (h : mmapArea address areas = some k) : ∃ b, areas[k]? = some b ∧ b.Holds address := by
  induction areas generalizing k with
  | nil => exact absurd h (by simp [mmapArea])
  | cons c rest ih =>
    unfold mmapArea at h
    split at h
    · obtain ⟨j, hj, rfl⟩ := Option.map_eq_some_iff.mp h
      exact ih hj
    next hend =>
      split at h
      next hstart =>
        obtain rfl := Option.some.inj h
        exact ⟨c, rfl, hstart.2, Nat.lt_of_not_ge hend⟩
      next => exact absurd h (by simp)

/-- No other area holds the address. -/
theorem SortedAreas.holds_unique (hsorted : SortedAreas (before ++ a :: after)) (ha : a.Holds address) :
    ∀ b ∈ before ++ after, ¬ b.Holds address := by
  obtain ⟨-, -, hbelow, habove⟩ := sortedAreas_append_cons.mp hsorted
  intro b hb hholds
  rcases List.mem_append.mp hb with hb | hb
  · exact absurd (Nat.le_trans (hbelow b hb) ha.1) (Nat.not_le.mpr hholds.2)
  · exact absurd (Nat.le_trans (habove b hb) hholds.1) (Nat.not_le.mpr ha.2)

/-- Without an area that holds the address none is found. -/
theorem mmapArea_missing (h : ∀ b ∈ areas, ¬ b.Holds address) : mmapArea address areas = none := by
  cases hfound : mmapArea address areas with
  | none => rfl
  | some k =>
    obtain ⟨b, hb, hholds⟩ := holds_of_mmapArea hfound
    exact absurd hholds (h b (List.mem_of_getElem? hb))

/-- Lookup and removal do what they are for exactly where an area holds the address. -/
theorem areaLookup_iff (ps : ProcessSpace) (pml4 address : ℕ) (hsorted : SortedAreas ps.areas) :
    AreaLookup ps pml4 address ↔ ∃ a ∈ ps.areas, a.Holds address := by
  constructor
  · intro hlookup
    by_contra hnone
    have hmissing : ∀ a ∈ ps.areas, ¬ a.Holds address := fun a ha hholds => hnone ⟨a, ha, hholds⟩
    have hunchanged := hlookup.unchanged hmissing
    unfold ProcessSpace.procDeallocDirect at hunchanged
    rw [mmapArea_missing hmissing] at hunchanged
    exact absurd hunchanged (by simp)
  · rintro ⟨c, hc, hholds⟩
    refine ⟨fun before a after hareas ha => ?_, mmapArea_missing, fun before a after hareas ha => ?_, fun hmissing => ?_⟩
    · rw [hareas] at hsorted ⊢
      exact ⟨mmapArea_found hsorted ha, hsorted.holds_unique ha⟩
    · have hget : ps.areas[before.length]? = some a := by
        rw [hareas]
        simp
      refine ⟨?_, ps.freeMmapArea_areas hareas pml4⟩
      have hfound : mmapArea address ps.areas = some before.length := by
        rw [hareas] at hsorted ⊢
        exact mmapArea_found hsorted ha
      unfold ProcessSpace.procDeallocDirect
      rw [hfound, Option.bind_eq_bind, Option.bind_some, hget]
    · exact absurd hholds (hmissing c hc)

/-- The last byte of an area. -/
theorem areaLookup_iff_lastByte : AreaLookup twoAreas 0x100000 0x1FFF :=
  (areaLookup_iff twoAreas 0x100000 0x1FFF ⟨by decide, by decide⟩).mpr
    ⟨⟨0x1000, 0x2000, .heapData, 1⟩, by decide, by decide⟩

/-- Between two areas the removal reads through `NULL`. -/
theorem areaLookup_gap : ¬ AreaLookup twoAreas 0x100000 0x2000 := by
  intro hlookup
  have hunchanged := hlookup.unchanged (by decide)
  have hfault : twoAreas.procDeallocDirect 0x100000 0x2000 = none := rfl
  exact absurd (hfault.symm.trans hunchanged) (by simp)

end Cthulhu
