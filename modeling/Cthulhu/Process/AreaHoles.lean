import Cthulhu.Process.AreaOrder

/-!
# Areas placed in a hole

`find_va_hole` takes the first gap that is as long as the request and the alignment together. It
rounds the start of the gap up and the random offset down, and draws the offset below the length
of the gap less the request. What the start loses to the rounding is not taken into account, so in
a gap with an area behind it a large draw places the new area over that one.
-/

namespace Cthulhu

/-- The gap between two parts of the list is the first one of at least the given length. -/
structure FirstGap (areas : List MmapArea) (need : ℕ) (before after : List MmapArea) : Prop where
  split : areas = before ++ after
  long : gapStart before + need ≤ gapEnd after
  first : ∀ front back, areas = front ++ back → front.length < before.length → gapEnd back < gapStart front + need

/-- What `find_va_hole` promises of the area it inserts. -/
structure Placed (areas : List MmapArea) (reqSize alignAmount : ℕ) (r : MmapArea × List MmapArea) : Prop where
  length : r.1.vaend = r.1.vastart + reqSize
  aligned : r.1.vastart % alignAmount = 0
  disjoint : ∀ a ∈ areas, a.vaend ≤ r.1.vastart ∨ r.1.vaend ≤ a.vastart
  inserted : ∃ before after, areas = before ++ after ∧ r.2 = before ++ r.1 :: after
  sorted : SortedAreas r.2

section Gaps

variable {areas before after : List MmapArea} {need : ℕ}

/-- There is only one first gap. -/
theorem FirstGap.unique {before' after' : List MmapArea} (h : FirstGap areas need before after)
    (h' : FirstGap areas need before' after') : before = before' ∧ after = after' := by
  have hlength : before.length = before'.length := by
    rcases Nat.lt_trichotomy before.length before'.length with hlt | heq | hgt
    · exact absurd (h'.first before after h.split hlt) (Nat.not_lt.mpr h.long)
    · exact heq
    · exact absurd (h.first before' after' h'.split hgt) (Nat.not_lt.mpr h'.long)
  exact List.append_inj (h.split.symm.trans h'.split) hlength

/-- The loop skips only gaps that are too short, and stops before an area only at a gap that is long
enough. -/
theorem holeLoop_first {reqSize alignAmount : ℕ} (hword : reqSize + alignAmount < 2 ^ 64) {startAddress : ℕ}
    (hsorted : SortedAreas areas) (hbelow : ∀ a ∈ areas, startAddress ≤ a.vastart) :
    (∀ front back, areas = front ++ back →
        front.length < (holeLoop reqSize alignAmount startAddress areas).before.length →
        gapEnd back < (front.getLast?.map MmapArea.vaend).getD startAddress + (reqSize + alignAmount)) ∧
      ((holeLoop reqSize alignAmount startAddress areas).after ≠ [] →
        (holeLoop reqSize alignAmount startAddress areas).start + (reqSize + alignAmount) ≤
          gapEnd (holeLoop reqSize alignAmount startAddress areas).after) := by
  induction areas generalizing startAddress with
  | nil => exact ⟨fun front back _ hshort => absurd hshort (Nat.not_lt_zero _), fun hafter => absurd rfl hafter⟩
  | cons a rest ih =>
    rw [List.forall_mem_cons] at hbelow
    unfold holeLoop
    rw [sub64_of_le hbelow.1, add64_of_lt hword]
    split
    · rename_i hlong
      refine ⟨fun front back _ hshort => absurd hshort (Nat.not_lt_zero _), fun _ => ?_⟩
      change startAddress + (reqSize + alignAmount) ≤ a.vastart
      omega
    · rename_i hshort
      have hrest : SortedAreas rest :=
        ⟨(List.pairwise_cons.mp hsorted.pairwise).2, fun b hb => hsorted.ordered b (List.mem_cons_of_mem _ hb)⟩
      obtain ⟨hskipped, hlong⟩ := ih hrest (List.pairwise_cons.mp hsorted.pairwise).1
      refine ⟨fun front back hsplit hlength => ?_, hlong⟩
      cases front with
      | nil =>
        obtain rfl : a :: rest = back := hsplit
        change a.vastart < startAddress + (reqSize + alignAmount)
        omega
      | cons b front =>
        obtain ⟨rfl, htail⟩ := List.cons.inj hsplit
        have hgap := hskipped front back htail (Nat.lt_of_succ_lt_succ hlength)
        rw [List.getLast?_cons]
        cases hlast : front.getLast? with
        | none => simpa [hlast] using hgap
        | some c => simpa [hlast] using hgap

/-- The selected hole is the first gap that is long enough, if there is one. -/
theorem firstGap_selectHole {reqSize alignAmount : ℕ} (hsorted : SortedAreas areas) (hbounds : InBounds areas)
    (hgap : ∃ front back, areas = front ++ back ∧ gapStart front + (reqSize + alignAmount) ≤ gapEnd back) :
    FirstGap areas (reqSize + alignAmount) (selectHole areas reqSize alignAmount).before
      (selectHole areas reqSize alignAmount).after := by
  obtain ⟨front, back, hareas, hlong⟩ := hgap
  obtain ⟨hsplit, hstart, -⟩ := selectHole_split areas reqSize alignAmount
  have hend := hbounds.gapEnd_le hareas
  have huser : userEnd < 2 ^ 48 := by decide
  have hword : reqSize + alignAmount < 2 ^ 64 := by omega
  cases hlist : areas with
  | nil =>
    rw [hlist] at hareas
    obtain ⟨rfl, rfl⟩ := List.append_eq_nil_iff.mp hareas.symm
    exact ⟨rfl, hlong, fun front back _ hshort => absurd hshort (Nat.not_lt_zero _)⟩
  | cons a rest =>
    obtain ⟨hskipped, hstop⟩ := holeLoop_first hword hsorted fun b hb => (hbounds b hb).1
    rw [hlist] at hskipped hstop hsplit hstart hareas
    have hfirst : ∀ front back, a :: rest = front ++ back →
        front.length < (selectHole (a :: rest) reqSize alignAmount).before.length →
        gapEnd back < gapStart front + (reqSize + alignAmount) := hskipped
    refine ⟨hsplit, ?_, hfirst⟩
    by_cases hafter : (selectHole (a :: rest) reqSize alignAmount).after = []
    · -- all gaps before the last one are too short, so the long one is the last
      have hlength : (selectHole (a :: rest) reqSize alignAmount).before.length ≤ front.length := by
        by_contra hshort
        exact absurd (hfirst front back hareas (Nat.not_le.mp hshort)) (Nat.not_lt.mpr hlong)
      rw [hafter, List.append_nil] at hsplit
      have htotal := congrArg List.length hareas
      rw [hsplit, List.length_append] at htotal
      obtain rfl : back = [] := List.length_eq_zero_iff.mp (by omega)
      rw [List.append_nil] at hareas
      rw [hafter, ← hsplit, hareas]
      exact hlong
    · rw [← hstart]
      exact hstop hafter

end Gaps

section Rounding

/-- Aligning down gives a multiple of the alignment. -/
theorem alignDown_mod (a b : ℕ) : alignDown a b % b = 0 := by
  unfold alignDown
  exact Nat.sub_mod_eq_zero_of_mod_eq (Nat.mod_mod a b).symm

/-- Aligning up gives the next multiple of the alignment. -/
theorem alignUp_spec {s b : ℕ} (hb : 1 ≤ b) (hword : s + b < 2 ^ 64) : s ≤ alignUp s b ∧ alignUp s b % b = 0 ∧
    alignUp s b < s + b := by
  have hdown := alignDown_bounds s hb
  have hmod := alignDown_mod s b
  unfold alignUp
  split
  · rename_i hzero
    exact ⟨Nat.le_refl s, hzero, by omega⟩
  · rename_i hnonzero
    have hne : alignDown s b ≠ s := by
      intro heq
      rw [heq] at hmod
      exact hnonzero hmod
    rw [add64_of_lt (by omega), Nat.add_mod_right]
    exact ⟨by omega, hmod, by omega⟩

end Rounding

section Placing

variable {areas : List MmapArea} {reqSize alignAmount random : ℕ}

/-- A possible random value and the request together are no more than a gap can be long. -/
theorem random_lt (hbounds : InBounds areas) {before after : List MmapArea}
    (hfirst : FirstGap areas (reqSize + alignAmount) before after)
    (hhole : (selectHole areas reqSize alignAmount).before = before ∧ (selectHole areas reqSize alignAmount).after = after)
    (hrandom : random < holeSlack areas reqSize alignAmount) : random + reqSize < 2 ^ 48 := by
  obtain ⟨-, hstart, hsize⟩ := selectHole_split areas reqSize alignAmount
  have hhigh := hbounds.gapEnd_le hfirst.split
  have hlong := hfirst.long
  have huser : userEnd < 2 ^ 48 := by decide
  rw [hhole.1] at hstart
  rw [hhole.2, hstart] at hsize
  unfold holeSlack at hrandom
  by_cases hnil : areas = []
  · have hall : (selectHole areas reqSize alignAmount).size = userEnd := by
      rw [hnil]
      rfl
    rw [hall, sub64_of_le (by omega)] at hrandom
    omega
  · rw [hsize hnil, sub64_of_le (show gapStart before ≤ gapEnd after by omega), sub64_of_le (by omega)] at hrandom
    omega

/-- The area that `find_va_hole` makes in the first gap that is long enough. -/
theorem findVaHole_eq (hsorted : SortedAreas areas) (hbounds : InBounds areas) (halign : 1 ≤ alignAmount)
    {before after : List MmapArea} (hfirst : FirstGap areas (reqSize + alignAmount) before after)
    (hrandom : random < holeSlack areas reqSize alignAmount) :
    ∃ vastart, vastart = alignUp (gapStart before) alignAmount + alignDown random alignAmount ∧
      gapStart before ≤ vastart ∧ vastart % alignAmount = 0 ∧
      findVaHole areas reqSize alignAmount random =
        (newArea vastart (vastart + reqSize), before ++ newArea vastart (vastart + reqSize) :: after) := by
  have hhole := (firstGap_selectHole hsorted hbounds ⟨before, after, hfirst.split, hfirst.long⟩).unique hfirst
  have hsmall := random_lt hbounds hfirst hhole hrandom
  have hlow := hbounds.gapStart_bounds hfirst.split
  have hhigh := hbounds.gapEnd_le hfirst.split
  have hlong := hfirst.long
  have huser : userEnd < 2 ^ 48 := by decide
  have hstart : (selectHole areas reqSize alignAmount).start = gapStart before := by
    rw [← hhole.1]
    exact (selectHole_split areas reqSize alignAmount).2.1
  obtain ⟨hup, hmultiple, hlt⟩ := alignUp_spec (s := gapStart before) halign (by omega)
  have hoffset := (alignDown_bounds random halign).1
  have hword : alignUp (gapStart before) alignAmount + alignDown random alignAmount + reqSize < 2 ^ 64 := by omega
  have hvastart : add64 (alignUp (gapStart before) alignAmount) (alignDown random alignAmount) =
      alignUp (gapStart before) alignAmount + alignDown random alignAmount := add64_of_lt (by omega)
  have hvaend : add64 (add64 (alignUp (gapStart before) alignAmount) reqSize) (alignDown random alignAmount) =
      alignUp (gapStart before) alignAmount + alignDown random alignAmount + reqSize := by
    have hsum : add64 (alignUp (gapStart before) alignAmount) reqSize =
        alignUp (gapStart before) alignAmount + reqSize := add64_of_lt (by omega)
    rw [hsum, Nat.add_right_comm]
    exact add64_of_lt (by omega)
  refine ⟨_, rfl, by omega, ?_, ?_⟩
  · rw [Nat.add_mod, hmultiple, alignDown_mod, Nat.zero_add, Nat.zero_mod]
  · unfold findVaHole
    dsimp only
    rw [if_neg (by omega), hstart, hvastart, hvaend, hhole.1, hhole.2]

/-- The areas in front of a gap end at or below its start. -/
theorem SortedAreas.le_gapStart {before after : List MmapArea} (hsorted : SortedAreas (before ++ after)) :
    ∀ b ∈ before, b.vaend ≤ gapStart before := by
  intro b hb
  unfold gapStart
  rcases List.eq_nil_or_concat before with rfl | ⟨front, last, rfl⟩
  · exact absurd hb (by simp)
  · rw [List.concat_eq_append] at hsorted hb ⊢
    rw [List.getLast?_concat]
    change b.vaend ≤ last.vaend
    rcases List.mem_append.mp hb with hfront | hlast
    · have hself := hsorted.ordered last (by simp)
      have hbelow : b.vaend ≤ last.vastart :=
        (List.pairwise_append.mp (List.pairwise_append.mp hsorted.pairwise).1).2.2 b hfront last (by simp)
      exact hbelow.trans hself
    · rw [List.mem_singleton.mp hlast]

end Placing

/-- The area that `find_va_hole` inserts is placed as promised exactly when the first gap that is long
enough is behind the last area, or the rounding of its start and the rounded random value leave
room for the request. -/
theorem findVaHole_placed_iff (areas : List MmapArea) (reqSize alignAmount random : ℕ) (hsorted : SortedAreas areas)
    (hbounds : InBounds areas) (halign : 1 ≤ alignAmount)
    (hgap : ∃ front back, areas = front ++ back ∧ gapStart front + (reqSize + alignAmount) ≤ gapEnd back)
    (hrandom : random < holeSlack areas reqSize alignAmount) :
    Placed areas reqSize alignAmount (findVaHole areas reqSize alignAmount random) ↔
      ∀ before after, FirstGap areas (reqSize + alignAmount) before after → after = [] ∨
        alignUp (gapStart before) alignAmount + alignDown random alignAmount + reqSize ≤ gapEnd after := by
  constructor
  · intro hplaced before after hfirst
    obtain ⟨vastart, hvastart, -, -, hresult⟩ := findVaHole_eq hsorted hbounds halign hfirst hrandom
    rw [hresult] at hplaced
    cases after with
    | nil => exact Or.inl rfl
    | cons a rest =>
      have habove := (sortedAreas_append_cons.mp hplaced.sorted).2.2.2 a List.mem_cons_self
      rw [← hvastart]
      exact Or.inr habove
  · intro hroom
    have hfirst := firstGap_selectHole hsorted hbounds hgap
    generalize (selectHole areas reqSize alignAmount).before = before at hfirst
    generalize (selectHole areas reqSize alignAmount).after = after at hfirst
    obtain ⟨vastart, hvastart, hstart, hmultiple, hresult⟩ := findVaHole_eq hsorted hbounds halign hfirst hrandom
    have hlist := hfirst.split
    rw [hlist] at hsorted
    have hbelow : ∀ b ∈ before, b.vaend ≤ vastart := fun b hb => (hsorted.le_gapStart b hb).trans hstart
    have habove : ∀ b ∈ after, vastart + reqSize ≤ b.vastart := by
      refine hsorted.right.le_of_head fun b hb => ?_
      have hend := (hroom before after hfirst).resolve_left fun hnil => by
        rw [hnil] at hb
        exact absurd hb (by simp)
      unfold gapEnd at hend
      rw [Option.mem_def.mp hb, ← hvastart] at hend
      exact hend
    rw [hresult]
    refine ⟨rfl, hmultiple, fun a ha => ?_, ⟨before, after, hlist, rfl⟩, ?_⟩
    · rw [hlist] at ha
      exact (List.mem_append.mp ha).imp (hbelow a) (habove a)
    · exact sortedAreas_append_cons.mpr ⟨hsorted, Nat.le_add_right _ _, hbelow, habove⟩

/-- An area in front of a gap that starts at a page, and an area behind it. -/
theorem findVaHole_placed_iff_pages :
    Placed [newArea 0x1000 0x2000, newArea 0x5000 0x6000] 0x1000 0x1000
        (findVaHole [newArea 0x1000 0x2000, newArea 0x5000 0x6000] 0x1000 0x1000 0x1FFF) ↔
      ∀ before after, FirstGap [newArea 0x1000 0x2000, newArea 0x5000 0x6000] (0x1000 + 0x1000) before after →
        after = [] ∨ alignUp (gapStart before) 0x1000 + alignDown 0x1FFF 0x1000 + 0x1000 ≤ gapEnd after :=
  findVaHole_placed_iff _ 0x1000 0x1000 0x1FFF ⟨by decide, by decide⟩ (by decide) (by decide)
    ⟨[newArea 0x1000 0x2000], [newArea 0x5000 0x6000], rfl, by decide⟩ (by decide)

/-- The gap starts behind a page boundary: the new area is placed over the area behind the gap. -/
theorem findVaHole_overlaps :
    SortedAreas [newArea 0x1000 0x1001, newArea 0x3002 0x4000] ∧
      InBounds [newArea 0x1000 0x1001, newArea 0x3002 0x4000] ∧
      gapStart [newArea 0x1000 0x1001] + (0x1000 + 0x1000) ≤ gapEnd [newArea 0x3002 0x4000] ∧
      0x1000 < holeSlack [newArea 0x1000 0x1001, newArea 0x3002 0x4000] 0x1000 0x1000 ∧
      (findVaHole [newArea 0x1000 0x1001, newArea 0x3002 0x4000] 0x1000 0x1000 0x1000).1 = newArea 0x3000 0x4000 ∧
      ¬ Placed [newArea 0x1000 0x1001, newArea 0x3002 0x4000] 0x1000 0x1000
        (findVaHole [newArea 0x1000 0x1001, newArea 0x3002 0x4000] 0x1000 0x1000 0x1000) := by
  refine ⟨⟨by decide, by decide⟩, by decide, by decide, by decide, by decide, fun hplaced => ?_⟩
  exact absurd (hplaced.disjoint (newArea 0x3002 0x4000) (by simp)) (by decide)

end Cthulhu
