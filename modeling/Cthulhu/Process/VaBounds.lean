import Cthulhu.Lib.Run
import Cthulhu.Process.VaAreas

/-!
# Bounds of the address-space areas

Runs of `request_va_hole`, `find_va_hole` and area removal. Neither insertion routine compares
the end of the new area with the end of the user half: `request_va_hole` accepts any range
behind the last area, and `find_va_hole` never fails, so a size no hole can hold is placed all
the same. As long as requests stay below the end and every possible placement in the selected
hole does, all areas stay in the user half, and a call that has no placement fails.
-/

namespace Cthulhu

open Lib

/-- The area lies in the user half, its first page left out. -/
def MmapArea.InBounds (a : MmapArea) : Prop := 0x1000 ≤ a.vastart ∧ a.vastart ≤ a.vaend ∧ a.vaend ≤ userEnd

instance (a : MmapArea) : Decidable a.InBounds := by
  unfold MmapArea.InBounds
  infer_instance

/-- Every area of the list lies in the user half. -/
def InBounds (areas : List MmapArea) : Prop := ∀ a ∈ areas, a.InBounds

instance (areas : List MmapArea) : Decidable (InBounds areas) := by
  unfold InBounds
  infer_instance

section Align

/-- Aligning down loses less than the alignment. -/
theorem alignDown_bounds (a : ℕ) {b : ℕ} (hb : 0 < b) : alignDown a b ≤ a ∧ a < alignDown a b + b := by
  have hmod := Nat.mod_lt a hb
  have hle := Nat.mod_le a b
  unfold alignDown
  omega

/-- Aligning down is monotone. -/
theorem alignDown_mono {a a' : ℕ} (b : ℕ) (h : a ≤ a') : alignDown a b ≤ alignDown a' b := by
  have hshape (x : ℕ) : alignDown x b = b * (x / b) := by
    have := Nat.div_add_mod x b
    unfold alignDown
    omega
  rw [hshape, hshape]
  exact Nat.mul_le_mul_left b (Nat.div_le_div_right h)

/-- Aligning up a user address does not wrap, and gives a multiple of the alignment. -/
theorem alignUp_bounds {a b : ℕ} (ha : a ≤ userEnd) (hpos : 0 < a) (hb : 0 < b) (hword : b < 2 ^ 64) :
    a ≤ alignUp a b ∧ b ≤ alignUp a b := by
  have hdown := alignDown_bounds a hb
  have hend : userEnd < 2 ^ 48 := by decide
  unfold alignUp
  split
  next haligned =>
    exact ⟨Nat.le_refl a, Nat.le_of_dvd hpos (Nat.dvd_of_mod_eq_zero haligned)⟩
  next =>
    have hsmall : alignDown a b + b < 2 ^ 64 := by
      rcases Nat.lt_or_ge a b with hlt | hge
      · have hzero : alignDown a b = 0 := by
          unfold alignDown
          rw [Nat.mod_eq_of_lt hlt, Nat.sub_self]
        omega
      · omega
    rw [add64_of_lt hsmall]
    omega

end Align

/-- The highest end that `find_va_hole` can give an area in the selected hole. -/
def lastEnd (areas : List MmapArea) (reqSize alignAmount : ℕ) : ℕ :=
  alignUp (selectHole areas reqSize alignAmount).start alignAmount +
    alignDown ((selectHole areas reqSize alignAmount).size - reqSize - 1) alignAmount + reqSize

/-- The calls that change the list of areas; a removal names the position. -/
inductive AreaOp
  | request (startAddress reqSize : ℕ)
  | find (reqSize alignAmount random : ℕ)
  | remove (index : ℕ)

namespace AreaOp

/-- The list after a call, or `none` where the call fails. -/
def apply (areas : List MmapArea) : AreaOp → Option (List MmapArea)
  | .request startAddress reqSize => requestVaHole areas startAddress reqSize
  | .find reqSize alignAmount random => some (findVaHole areas reqSize alignAmount random).2
  | .remove index => some (areas.eraseIdx index)

/-- One call; a failing one leaves the list. -/
def step (areas : List MmapArea) (op : AreaOp) : List MmapArea := (op.apply areas).getD areas

/-- Arguments are words, alignments are positive, and random values are below their limit. -/
def Callable (areas : List MmapArea) : AreaOp → Prop
  | .request startAddress reqSize => startAddress < 2 ^ 64 ∧ reqSize < 2 ^ 64
  | .find reqSize alignAmount random => reqSize < 2 ^ 64 ∧ 1 ≤ alignAmount ∧ alignAmount < 2 ^ 64 ∧
      (holeSlack areas reqSize alignAmount ≠ 0 → random < holeSlack areas reqSize alignAmount)
  | .remove _ => True

/-- The condition under which a call keeps the bounds: a request ends in the user half or is refused,
and the selected hole can hold the size and every placement in it. -/
def Safe (areas : List MmapArea) : AreaOp → Prop
  | .request startAddress reqSize =>
    startAddress + reqSize ≤ userEnd ∨ requestVaHole areas startAddress reqSize = none
  | .find reqSize alignAmount _ =>
    reqSize ≤ (selectHole areas reqSize alignAmount).size ∧ lastEnd areas reqSize alignAmount ≤ userEnd
  | .remove _ => True

/-- The call has a placement between the areas of the list. -/
def Placeable (areas : List MmapArea) : AreaOp → Prop
  | .request startAddress reqSize => Fits areas startAddress reqSize
  | .find reqSize _ _ => ∃ vastart, Fits areas vastart reqSize
  | .remove _ => True

end AreaOp

section Find

variable {areas : List MmapArea} {reqSize alignAmount : ℕ}

/-- The front end of any hole is a user address. -/
theorem InBounds.gapStart_bounds (h : InBounds areas) {before after : List MmapArea} (hsplit : areas = before ++ after) :
    0x1000 ≤ gapStart before ∧ gapStart before ≤ userEnd := by
  unfold gapStart
  cases hlast : before.getLast? with
  | none => exact ⟨Nat.le_refl _, by decide⟩
  | some a =>
    have hmem : a ∈ areas := by
      rw [hsplit]
      exact List.mem_append_left _ (List.mem_of_getLast? hlast)
    obtain ⟨hlow, horder, hhigh⟩ := h a hmem
    exact ⟨Nat.le_trans hlow horder, hhigh⟩

/-- The back end of any hole is a user address. -/
theorem InBounds.gapEnd_le (h : InBounds areas) {before after : List MmapArea} (hsplit : areas = before ++ after) :
    gapEnd after ≤ userEnd := by
  unfold gapEnd
  cases hhead : after.head? with
  | none => exact Nat.le_refl _
  | some a =>
    have hmem : a ∈ areas := by
      rw [hsplit]
      exact List.mem_append_right _ (List.mem_of_head? hhead)
    obtain ⟨-, horder, hhigh⟩ := h a hmem
    exact Nat.le_trans horder hhigh

/-- A safe `find_va_hole` has room in the hole it selects. -/
theorem InBounds.find_fits (h : InBounds areas) (halign : 1 ≤ alignAmount) (hword : alignAmount < 2 ^ 64)
    (hsize : reqSize ≤ (selectHole areas reqSize alignAmount).size)
    (hlast : lastEnd areas reqSize alignAmount ≤ userEnd) :
    Fits areas (selectHole areas reqSize alignAmount).start reqSize := by
  obtain ⟨hsplit, hstart, hgap⟩ := selectHole_split areas reqSize alignAmount
  have hbounds := h.gapStart_bounds hsplit
  have hend := h.gapEnd_le hsplit
  rw [← hstart] at hbounds
  refine ⟨_, _, hsplit, Nat.le_of_eq hstart.symm, ?_⟩
  have hup := alignUp_bounds hbounds.2 (by omega) halign hword
  have hdown := alignDown_bounds ((selectHole areas reqSize alignAmount).size - reqSize - 1) halign
  unfold lastEnd at hlast
  have huser : userEnd < 2 ^ 48 := by decide
  by_cases hnil : areas = []
  · subst hnil
    change 0x1000 + reqSize ≤ userEnd
    change _ ≤ alignUp 0x1000 alignAmount ∧ _ at hup
    change alignUp 0x1000 alignAmount + _ + reqSize ≤ userEnd at hlast
    omega
  · -- a hole that wraps would end far above the user half
    have hgap := hgap hnil
    unfold sub64 at hgap
    split at hgap <;> omega

/-- A safe `find_va_hole` places its area in the user half, whatever the random value. -/
theorem InBounds.find_inBounds (h : InBounds areas) (halign : 1 ≤ alignAmount) (hword : alignAmount < 2 ^ 64)
    {random : ℕ} (hrandom : holeSlack areas reqSize alignAmount ≠ 0 → random < holeSlack areas reqSize alignAmount)
    (hsize : reqSize ≤ (selectHole areas reqSize alignAmount).size)
    (hlast : lastEnd areas reqSize alignAmount ≤ userEnd) :
    (findVaHole areas reqSize alignAmount random).1.InBounds := by
  obtain ⟨hsplit, hstart, -⟩ := selectHole_split areas reqSize alignAmount
  have hbounds := h.gapStart_bounds hsplit
  rw [← hstart] at hbounds
  have hup := alignUp_bounds hbounds.2 (by omega) halign hword
  have huser : userEnd < 2 ^ 48 := by decide
  have hslack : holeSlack areas reqSize alignAmount = (selectHole areas reqSize alignAmount).size - reqSize :=
    sub64_of_le hsize
  unfold lastEnd at hlast
  have hoffset : alignDown (if holeSlack areas reqSize alignAmount = 0 then 0 else random) alignAmount ≤
      alignDown ((selectHole areas reqSize alignAmount).size - reqSize - 1) alignAmount := by
    refine alignDown_mono alignAmount ?_
    split
    next => exact Nat.zero_le _
    next hne =>
      have := hrandom hne
      omega
  unfold findVaHole newArea
  dsimp only
  generalize alignDown (if holeSlack areas reqSize alignAmount = 0 then 0 else random) alignAmount = offset at hoffset
  rw [add64_of_lt (a := alignUp _ _) (b := offset) (by omega),
    add64_of_lt (a := alignUp _ _) (b := reqSize) (by omega), add64_of_lt (by omega)]
  refine ⟨?_, ?_, ?_⟩ <;> dsimp only <;> omega

end Find

section Step

variable {areas : List MmapArea} {op : AreaOp}

/-- A safe call keeps every area in the user half. -/
theorem InBounds.step (h : InBounds areas) (hcall : op.Callable areas) (hsafe : op.Safe areas) :
    InBounds (AreaOp.step areas op) := by
  cases op with
  | request startAddress reqSize =>
    change InBounds ((requestVaHole areas startAddress reqSize).getD areas)
    cases hres : requestVaHole areas startAddress reqSize with
    | none => exact h
    | some areas' =>
      have hend : startAddress + reqSize ≤ userEnd := by
        rcases hsafe with hend | hnone
        · exact hend
        · rw [hres] at hnone
          exact absurd hnone (by simp)
      unfold requestVaHole at hres
      split at hres
      next => exact absurd hres (by simp)
      next hlow =>
        obtain ⟨before, after, rfl, rfl, -, -⟩ := requestLoop_some hres
        have huser : userEnd < 2 ^ 48 := by decide
        have hnew : (newArea startAddress (add64 startAddress reqSize)).InBounds := by
          rw [add64_of_lt (by omega)]
          exact ⟨Nat.le_of_not_lt hlow, Nat.le_add_right _ _, hend⟩
        intro a ha
        rw [Option.getD_some, List.mem_append, List.mem_cons] at ha
        rcases ha with ha | rfl | ha
        · exact h a (List.mem_append_left _ ha)
        · exact hnew
        · exact h a (List.mem_append_right _ ha)
  | find reqSize alignAmount random =>
    have hnew := h.find_inBounds hcall.2.1 hcall.2.2.1 hcall.2.2.2 hsafe.1 hsafe.2
    obtain ⟨hsplit, -, -⟩ := selectHole_split areas reqSize alignAmount
    intro a ha
    have ha' : a ∈ (selectHole areas reqSize alignAmount).before ++
        (findVaHole areas reqSize alignAmount random).1 :: (selectHole areas reqSize alignAmount).after := ha
    rw [List.mem_append, List.mem_cons] at ha'
    rcases ha' with ha | rfl | ha
    · exact h a (by rw [hsplit]; exact List.mem_append_left _ ha)
    · exact hnew
    · exact h a (by rw [hsplit]; exact List.mem_append_right _ ha)
  | remove index => exact fun a ha => h a (List.mem_of_mem_eraseIdx ha)

/-- A safe call that does not fail has a placement. -/
theorem InBounds.placeable (h : InBounds areas) (hcall : op.Callable areas) (hsafe : op.Safe areas)
    (hdone : op.apply areas ≠ none) : op.Placeable areas := by
  cases op with
  | request startAddress reqSize =>
    change requestVaHole areas startAddress reqSize ≠ none at hdone
    have hend : startAddress + reqSize ≤ userEnd := hsafe.resolve_right hdone
    obtain ⟨areas', hres⟩ := Option.ne_none_iff_exists'.mp hdone
    unfold requestVaHole at hres
    split at hres
    next => exact absurd hres (by simp)
    next hlow =>
      obtain ⟨before, after, hsplit, -, hbefore, hafter⟩ := requestLoop_some hres
      have huser : userEnd < 2 ^ 48 := by decide
      rw [add64_of_lt (by omega)] at hafter
      refine ⟨before, after, hsplit, ?_, ?_⟩
      · unfold gapStart
        cases hlast : before.getLast? with
        | none => exact Nat.le_of_not_lt hlow
        | some a => exact hbefore a (List.mem_of_getLast? hlast)
      · unfold gapEnd
        cases hhead : after.head? with
        | none => exact hend
        | some a => exact Nat.le_of_lt (hafter a hhead)
  | find reqSize alignAmount random => exact ⟨_, h.find_fits hcall.2.1 hcall.2.2.1 hsafe.1 hsafe.2⟩
  | remove index => trivial

end Step

/-- What the bounds of the areas ask of one state: every area in the user half, and every call that
has no placement fails and leaves the list. -/
def BoundsContract (guard : List MmapArea → AreaOp → Prop) (areas : List MmapArea) : Prop :=
  InBounds areas ∧ ∀ op : AreaOp, guard areas op → ¬ op.Placeable areas →
    op.apply areas = none ∧ AreaOp.step areas op = areas

/-- In every run from a new process whose calls are safe, all areas are in the user half, and a safe
call without a placement fails and changes nothing. -/
theorem vaArea_run_bounds (ops : List AreaOp)
    (hops : Guarded AreaOp.step (fun areas op => op.Callable areas ∧ op.Safe areas) [] ops) :
    BoundsContract (fun areas op => op.Callable areas ∧ op.Safe areas) (run AreaOp.step [] ops) := by
  have hbounds := hops.invariant InBounds (fun areas op h hguard => h.step hguard.1 hguard.2) (by simp [InBounds])
  refine ⟨hbounds, fun op hguard hplace => ?_⟩
  have hnone : op.apply (run AreaOp.step [] ops) = none := by
    by_contra hdone
    exact hplace (hbounds.placeable hguard.1 hguard.2 hdone)
  exact ⟨hnone, by rw [AreaOp.step, hnone]; rfl⟩

/-- A fixed section, a placed one behind it, and the removal of the first. -/
theorem vaArea_run_bounds_small :
    BoundsContract (fun areas op => op.Callable areas ∧ op.Safe areas)
      (run AreaOp.step [] [.request 0x400000 0x2000, .find 0x3000 0x1000 0x5123, .remove 0]) := by
  refine vaArea_run_bounds _ ?_
  simp only [Guarded, AreaOp.Callable, AreaOp.Safe]
  decide

/-- A request for the whole user half is placed behind its first page and ends above it. -/
theorem vaArea_bounds_fail :
    ¬ ∀ ops : List AreaOp, Guarded AreaOp.step AreaOp.Callable [] ops →
      BoundsContract AreaOp.Callable (run AreaOp.step [] ops) := by
  intro hall
  have hcontract := hall [.find 0x800000000000 0x1000 0] (by simp only [Guarded, AreaOp.Callable]; decide)
  have hout : ¬ InBounds (run AreaOp.step [] [.find 0x800000000000 0x1000 0]) := by decide
  exact hout hcontract.1

end Cthulhu
