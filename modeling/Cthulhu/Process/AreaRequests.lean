import Cthulhu.Process.AreaOrder

/-!
# Which requests are accepted

`request_va_hole` skips the areas that end at or below the start it was given, and then compares
with the next one. That area is refused also where it begins right at the end of the request, so
two neighbouring ranges are accepted from below to above and refused the other way round. Ranges
that do not touch are accepted in every order, and every order gives the same list.
-/

namespace Cthulhu

/-- The range has a byte in common with the area. -/
def MmapArea.Meets (a : MmapArea) (startAddress reqSize : ℕ) : Prop :=
  ∃ x, startAddress ≤ x ∧ x < startAddress + reqSize ∧ a.vastart ≤ x ∧ x < a.vaend

/-- The range begins at or above the end of another range, or ends below its start. -/
def Clears (other range : ℕ × ℕ) : Prop := other.1 + other.2 ≤ range.1 ∨ range.1 + range.2 < other.1

instance (other range : ℕ × ℕ) : Decidable (Clears other range) := inferInstanceAs (Decidable (_ ∨ _))

/-- Two ranges that can be requested in either order. -/
def Apart (r r' : ℕ × ℕ) : Prop := Clears r r' ∧ Clears r' r

instance (r r' : ℕ × ℕ) : Decidable (Apart r r') := inferInstanceAs (Decidable (_ ∧ _))

instance : Std.Symm Apart := ⟨fun _ _ h => And.symm h⟩

/-- The range can be requested next to the areas: each of them ends at or below its start, or begins
above its end. -/
def Accepted (areas : List MmapArea) (range : ℕ × ℕ) : Prop :=
  0x1000 ≤ range.1 ∧ ∀ a ∈ areas, a.vaend ≤ range.1 ∨ add64 range.1 range.2 < a.vastart

/-- Requests one after the other, until one is refused. -/
def requestAll (areas : List MmapArea) (ranges : List (ℕ × ℕ)) : Option (List MmapArea) :=
  ranges.foldlM (fun areas range => requestVaHole areas range.1 range.2) areas

/-- The ranges are accepted in every order, and all orders give the same list. -/
def OrderFree (areas : List MmapArea) (ranges : List (ℕ × ℕ)) : Prop :=
  ∃ final, ∀ order, order.Perm ranges → requestAll areas order = some final

/-- The area of a range, in front of the first area that ends above its start. -/
def insertArea (areas : List MmapArea) (range : ℕ × ℕ) : List MmapArea :=
  match areas with
  | [] => [newArea range.1 (add64 range.1 range.2)]
  | a :: rest =>
    if a.vaend ≤ range.1 then a :: insertArea rest range
    else newArea range.1 (add64 range.1 range.2) :: a :: rest

section Request

variable {areas : List MmapArea} {range : ℕ × ℕ}

/-- The areas after an insertion. -/
theorem mem_insertArea {b : MmapArea} :
    b ∈ insertArea areas range ↔ b = newArea range.1 (add64 range.1 range.2) ∨ b ∈ areas := by
  induction areas with
  | nil => simp [insertArea]
  | cons a rest ih =>
    unfold insertArea
    split
    · rw [List.mem_cons, ih, List.mem_cons]
      exact or_left_comm
    · rw [List.mem_cons]

/-- The loop accepts exactly what clears the areas, and then inserts it. -/
theorem requestLoop_eq_some_iff (hsorted : SortedAreas areas) {areas' : List MmapArea} :
    requestLoop range.1 range.2 areas = some areas' ↔
      (∀ a ∈ areas, a.vaend ≤ range.1 ∨ add64 range.1 range.2 < a.vastart) ∧ areas' = insertArea areas range := by
  induction areas generalizing areas' with
  | nil => simp [requestLoop, insertArea, eq_comm]
  | cons a rest ih =>
    have hbelow := (List.pairwise_cons.mp hsorted.pairwise).1
    have hself := hsorted.ordered a List.mem_cons_self
    have hrest : SortedAreas rest :=
      ⟨(List.pairwise_cons.mp hsorted.pairwise).2, fun b hb => hsorted.ordered b (List.mem_cons_of_mem _ hb)⟩
    unfold requestLoop insertArea
    rw [List.forall_mem_cons]
    by_cases hskip : a.vaend ≤ range.1
    · rw [if_pos hskip, if_pos hskip, Option.map_eq_some_iff]
      constructor
      · rintro ⟨rest', hrest', rfl⟩
        obtain ⟨hclear, rfl⟩ := (ih hrest).mp hrest'
        exact ⟨⟨Or.inl hskip, hclear⟩, rfl⟩
      · rintro ⟨⟨-, hclear⟩, rfl⟩
        exact ⟨insertArea rest range, (ih hrest).mpr ⟨hclear, rfl⟩, rfl⟩
    · rw [if_neg hskip, if_neg hskip]
      constructor
      · intro hsome
        split at hsome
        · exact absurd hsome (by simp)
        · rename_i hclear
          have habove : add64 range.1 range.2 < a.vastart := by omega
          refine ⟨⟨Or.inr habove, fun b hb => Or.inr ?_⟩, (Option.some.inj hsome).symm⟩
          exact (habove.trans_le hself).trans_le (hbelow b hb)
      · rintro ⟨⟨hfirst, -⟩, rfl⟩
        have habove := hfirst.resolve_left hskip
        rw [if_neg fun hmeets => Nat.not_le_of_lt habove hmeets.2]

/-- `request_va_hole` accepts exactly what clears the areas, and then inserts it. -/
theorem requestVaHole_eq_some_iff (hsorted : SortedAreas areas) (range : ℕ × ℕ) {areas' : List MmapArea} :
    requestVaHole areas range.1 range.2 = some areas' ↔ Accepted areas range ∧ areas' = insertArea areas range := by
  unfold requestVaHole Accepted
  by_cases hlow : range.1 < 0x1000
  · rw [if_pos hlow]
    constructor
    · intro hsome
      exact absurd hsome (by simp)
    · rintro ⟨⟨hstart, -⟩, -⟩
      exact absurd hlow (Nat.not_lt.mpr hstart)
  · rw [if_neg hlow, requestLoop_eq_some_iff hsorted, and_assoc]
    exact (and_iff_right (Nat.not_lt.mp hlow)).symm

/-- An insertion of an accepted range keeps the order. -/
theorem SortedAreas.insertArea (hsorted : SortedAreas areas) (haccepted : Accepted areas range)
    (hword : range.1 + range.2 < 2 ^ 64) : SortedAreas (Cthulhu.insertArea areas range) :=
  (hsorted.request hword ((requestVaHole_eq_some_iff hsorted range).mpr ⟨haccepted, rfl⟩)).1

/-- A range clears the areas after an insertion if it clears them before, and the new range. -/
theorem accepted_insertArea {range' : ℕ × ℕ} (hword : range.1 + range.2 < 2 ^ 64)
    (hword' : range'.1 + range'.2 < 2 ^ 64) :
    Accepted (insertArea areas range) range' ↔ Accepted areas range' ∧ Clears range range' := by
  unfold Accepted Clears
  simp only [mem_insertArea, forall_eq_or_imp, newArea, add64_of_lt hword, add64_of_lt hword']
  tauto

end Request

section Orders

variable {areas : List MmapArea}

/-- The order of two insertions does not matter when one range ends below the other. -/
theorem insertArea_comm_of_lt {r r' : ℕ × ℕ} (hword : r.1 + r.2 < 2 ^ 64) (hword' : r'.1 + r'.2 < 2 ^ 64)
    (hlt : r.1 + r.2 < r'.1) (areas : List MmapArea) :
    insertArea (insertArea areas r) r' = insertArea (insertArea areas r') r := by
  have hpass : (newArea r.1 (add64 r.1 r.2)).vaend ≤ r'.1 := by
    rw [add64_of_lt hword]
    exact Nat.le_of_lt hlt
  have hstop : ¬ (newArea r'.1 (add64 r'.1 r'.2)).vaend ≤ r.1 := by
    rw [add64_of_lt hword']
    change ¬ r'.1 + r'.2 ≤ r.1
    omega
  induction areas with
  | nil => simp only [insertArea, if_pos hpass, if_neg hstop]
  | cons a rest ih =>
    by_cases hlow : a.vaend ≤ r.1
    · have hhigh : a.vaend ≤ r'.1 := by omega
      simp only [insertArea, if_pos hlow, if_pos hhigh, ih]
    · by_cases hhigh : a.vaend ≤ r'.1
      · simp only [insertArea, if_neg hlow, if_pos hpass, if_pos hhigh]
      · simp only [insertArea, if_neg hlow, if_pos hpass, if_neg hhigh, if_neg hstop]

/-- The order of two insertions of ranges that keep apart does not matter. -/
theorem insertArea_comm {r r' : ℕ × ℕ} (hword : r.1 + r.2 < 2 ^ 64) (hword' : r'.1 + r'.2 < 2 ^ 64) (h : Apart r r')
    (areas : List MmapArea) : insertArea (insertArea areas r) r' = insertArea (insertArea areas r') r := by
  obtain ⟨hclear | hlt, hclear' | hlt'⟩ := h
  · -- both ranges are empty and at the same place
    obtain rfl : r = r' := Prod.ext (by omega) (by omega)
    rfl
  · exact insertArea_comm_of_lt hword hword' hlt' areas
  · exact (insertArea_comm_of_lt hword' hword hlt areas).symm
  · exact absurd hlt (by omega)

/-- A sequence of requests is accepted exactly when each clears the areas and the requests before it. -/
theorem requestAll_eq_some_iff {ranges : List (ℕ × ℕ)} (hsorted : SortedAreas areas)
    (hword : ∀ r ∈ ranges, r.1 + r.2 < 2 ^ 64) {final : List MmapArea} :
    requestAll areas ranges = some final ↔
      (∀ r ∈ ranges, Accepted areas r) ∧ ranges.Pairwise Clears ∧ final = ranges.foldl insertArea areas := by
  induction ranges generalizing areas with
  | nil => simp [requestAll, eq_comm]
  | cons r rest ih =>
    rw [List.forall_mem_cons] at hword
    have hunfold : requestAll areas (r :: rest) = (requestVaHole areas r.1 r.2).bind fun next => requestAll next rest :=
      rfl
    rw [hunfold, Option.bind_eq_some_iff, List.forall_mem_cons, List.pairwise_cons, List.foldl_cons]
    constructor
    · rintro ⟨next, hnext, hrest⟩
      obtain ⟨haccepted, rfl⟩ := (requestVaHole_eq_some_iff hsorted r).mp hnext
      obtain ⟨hall, hpairwise, hfinal⟩ := (ih (hsorted.insertArea haccepted hword.1) hword.2).mp hrest
      have hsplit (r' : ℕ × ℕ) (hr' : r' ∈ rest) := (accepted_insertArea hword.1 (hword.2 r' hr')).mp (hall r' hr')
      exact ⟨⟨haccepted, fun r' hr' => (hsplit r' hr').1⟩, ⟨fun r' hr' => (hsplit r' hr').2, hpairwise⟩, hfinal⟩
    · rintro ⟨⟨haccepted, hall⟩, ⟨hclears, hpairwise⟩, hfinal⟩
      refine ⟨insertArea areas r, (requestVaHole_eq_some_iff hsorted r).mpr ⟨haccepted, rfl⟩, ?_⟩
      refine (ih (hsorted.insertArea haccepted hword.1) hword.2).mpr ⟨fun r' hr' => ?_, hpairwise, hfinal⟩
      exact (accepted_insertArea hword.1 (hword.2 r' hr')).mpr ⟨hall r' hr', hclears r' hr'⟩

/-- Requests are accepted in every order, with one result, exactly when each clears the areas and any
two keep apart. -/
theorem orderFree_iff {ranges : List (ℕ × ℕ)} (hsorted : SortedAreas areas)
    (hword : ∀ r ∈ ranges, r.1 + r.2 < 2 ^ 64) :
    OrderFree areas ranges ↔ (∀ r ∈ ranges, Accepted areas r) ∧ ranges.Pairwise Apart := by
  constructor
  · rintro ⟨final, horders⟩
    have hword' : ∀ r ∈ ranges.reverse, r.1 + r.2 < 2 ^ 64 := fun r hr => hword r (List.mem_reverse.mp hr)
    obtain ⟨haccepted, hforward, -⟩ := (requestAll_eq_some_iff hsorted hword).mp (horders ranges (List.Perm.refl _))
    obtain ⟨-, hbackward, -⟩ :=
      (requestAll_eq_some_iff hsorted hword').mp (horders ranges.reverse (List.reverse_perm ranges))
    exact ⟨haccepted, hforward.and (List.pairwise_reverse.mp hbackward)⟩
  · rintro ⟨haccepted, hapart⟩
    refine ⟨ranges.foldl insertArea areas, fun order horder => ?_⟩
    have hapart' : order.Pairwise Apart := horder.symm.pairwise hapart fun h => And.symm h
    have hword' : ∀ r ∈ order, r.1 + r.2 < 2 ^ 64 := fun r hr => hword r (horder.mem_iff.mp hr)
    refine (requestAll_eq_some_iff hsorted hword').mpr ⟨fun r hr => haccepted r (horder.mem_iff.mp hr),
      hapart'.imp fun h => h.1, ?_⟩
    refine horder.symm.foldl_eq' (fun r hr r' hr' z => ?_) areas
    by_cases hsame : r = r'
    · rw [hsame]
    · exact insertArea_comm (hword r hr) (hword r' hr') (hapart.forall hr hr' hsame) z

end Orders

/-- A request that has no byte in common with an area is accepted exactly when each area ends at or
below its start or begins above its end, and ranges are accepted in every order exactly when this
holds of each with the areas and, both ways round, of any two. -/
theorem requests_complete_iff (areas : List MmapArea) (hsorted : SortedAreas areas) :
    (∀ startAddress reqSize, 0x1000 ≤ startAddress → (∀ a ∈ areas, ¬ a.Meets startAddress reqSize) →
      ((∃ areas', requestVaHole areas startAddress reqSize = some areas') ↔
        ∀ a ∈ areas, a.vaend ≤ startAddress ∨ add64 startAddress reqSize < a.vastart)) ∧
      ∀ ranges : List (ℕ × ℕ), (∀ r ∈ ranges, 0x1000 ≤ r.1 ∧ r.1 + r.2 < 2 ^ 64) →
        (OrderFree areas ranges ↔
          (∀ r ∈ ranges, ∀ a ∈ areas, a.vaend ≤ r.1 ∨ r.1 + r.2 < a.vastart) ∧ ranges.Pairwise Apart) := by
  refine ⟨fun startAddress reqSize hstart _ => ?_, fun ranges hranges => ?_⟩
  · constructor
    · rintro ⟨areas', hsome⟩
      exact ((requestVaHole_eq_some_iff hsorted (startAddress, reqSize)).mp hsome).1.2
    · intro hclear
      exact ⟨_, (requestVaHole_eq_some_iff hsorted (startAddress, reqSize)).mpr ⟨⟨hstart, hclear⟩, rfl⟩⟩
  · rw [orderFree_iff hsorted fun r hr => (hranges r hr).2]
    refine and_congr_left fun _ => forall₂_congr fun r hr => ?_
    unfold Accepted
    rw [add64_of_lt (hranges r hr).2]
    exact and_iff_right (hranges r hr).1

/-- One area and two requests around it. -/
theorem requests_complete_iff_around : SortedAreas [newArea 0x4000 0x5000] ∧
    (∃ areas', requestVaHole [newArea 0x4000 0x5000] 0x2000 0x1000 = some areas') ∧
      OrderFree [newArea 0x4000 0x5000] [(0x2000, 0x1000), (0x5000, 0x1000)] := by
  have hsorted : SortedAreas [newArea 0x4000 0x5000] := ⟨by decide, by decide⟩
  obtain ⟨hone, hall⟩ := requests_complete_iff [newArea 0x4000 0x5000] hsorted
  refine ⟨hsorted, (hone 0x2000 0x1000 (by decide) ?_).mpr (by decide), (hall _ (by decide)).mpr (by decide)⟩
  rintro a ha ⟨x, -, hbelow, habove, -⟩
  rw [List.mem_singleton.mp ha] at habove
  change 0x4000 ≤ x at habove
  omega

/-- A request right below an area is refused although they have no byte in common, and the two ranges
are accepted only from below to above. -/
theorem requests_neighbours_refused :
    (∀ a ∈ [newArea 0x2000 0x3000], ¬ a.Meets 0x1000 0x1000) ∧
      requestVaHole [newArea 0x2000 0x3000] 0x1000 0x1000 = none ∧
      requestAll [] [(0x1000, 0x1000), (0x2000, 0x1000)] = some [newArea 0x1000 0x2000, newArea 0x2000 0x3000] ∧
      requestAll [] [(0x2000, 0x1000), (0x1000, 0x1000)] = none := by
  refine ⟨?_, by decide, by decide, by decide⟩
  rintro a ha ⟨x, -, hbelow, habove, -⟩
  rw [List.mem_singleton.mp ha] at habove
  exact absurd habove (Nat.not_le.mpr hbelow)

end Cthulhu
