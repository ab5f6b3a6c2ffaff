import Cthulhu.Memory.FrameBudget
import Cthulhu.Process.Resumption
import Cthulhu.Syscalls.CheckState

/-!
# What validation leaves behind

A swapped page after an on-demand one stops `check_mem_state`, and `repair_memory` then gives a frame to each on-demand
page that was stored, and at an unaligned address to the page after it as well. It is the only case in which
`validate_address` changes a page table. The repair fails when the pool is short of frames, and then the validation is
right to refuse; when it succeeds, the swapped page is as inaccessible as before unless it is one of those pages.
-/

namespace Cthulhu

open Lib

section Requests

variable {cr3 : ℕ} {a b : Machine} {info : AllocInfo}

/-- A round of `allocate_mem` for pages with frames does what a round of `allocate` does, and goes on as it does. -/
theorem Machine.allocateMemPage_eq (haod : info.aod = false) (hexec : info.exec = false) (stale : ℕ → ℕ) (va : ℕ) :
    (Machine.allocatePage false false cr3 (a, none) va = (b, none) →
        Machine.allocateMemPage false false cr3 stale ((info, a), false) va = ((info.next, b), false)) ∧
      ((Machine.allocatePage false false cr3 (a, none) va).2 ≠ none →
        (Machine.allocateMemPage false false cr3 stale ((info, a), false) va).2 = true ∧
          (Machine.allocateMemPage false false cr3 stale ((info, a), false) va).1.1.finished = false) := by
  have hstops := a.allocateMemPage_none cr3 info false false stale va
  have hfinds (p : Slot) := a.allocateMemPage_some cr3 info false false stale va p
  unfold Machine.allocatePage
  rw [if_neg (not_not.mpr rfl)]
  rw [Bool.not_false] at hstops hfinds ⊢
  dsimp only
  generalize (a.lock .frame).getPage va cr3 true true = r at hstops hfinds ⊢
  cases hslot : r.1 with
  | none =>
    rw [hstops hslot]
    exact ⟨fun h => absurd (Prod.mk.inj h).2 (by simp), fun _ => ⟨rfl, rfl⟩⟩
  | some p =>
    rw [hfinds p hslot, haod, hexec, if_neg Bool.false_ne_true]
    dsimp only
    generalize r.2.allocateFrame p false false false = given
    by_cases hzero : given.1 = 0
    · rw [if_pos hzero, if_pos hzero]
      exact ⟨fun h => absurd (Prod.mk.inj h).2 (by simp), fun _ => ⟨rfl, rfl⟩⟩
    · rw [if_neg hzero, if_neg hzero]
      refine ⟨fun h => ?_, fun hstop => absurd rfl hstop⟩
      rw [(Prod.mk.inj h).1]

/-- So do the rounds of a call. -/
theorem Machine.allocateMemRounds_eq (haod : info.aod = false) (hexec : info.exec = false) (stale : ℕ → ℕ) (pages : List ℕ) :
    (run (Machine.allocatePage false false cr3) (a, none) pages = (b, none) →
        ∃ info', run (Machine.allocateMemPage false false cr3 stale) ((info, a), false) pages = ((info', b), false)) ∧
      ((run (Machine.allocatePage false false cr3) (a, none) pages).2 ≠ none →
        (run (Machine.allocateMemPage false false cr3 stale) ((info, a), false) pages).2 = true ∧
          (run (Machine.allocateMemPage false false cr3 stale) ((info, a), false) pages).1.1.finished = false) := by
  induction pages generalizing a info with
  | nil =>
    refine ⟨fun h => ⟨info, ?_⟩, fun hstop => absurd rfl hstop⟩
    rw [← (Prod.mk.inj h).1]
    rfl
  | cons va pages ih =>
    have hround (c : Machine) := @Machine.allocateMemPage_eq cr3 a c info haod hexec stale va
    have hplain : run (Machine.allocatePage false false cr3) (a, none) (va :: pages) =
        run (Machine.allocatePage false false cr3) (Machine.allocatePage false false cr3 (a, none) va) pages := rfl
    have hmem : run (Machine.allocateMemPage false false cr3 stale) ((info, a), false) (va :: pages) =
        run (Machine.allocateMemPage false false cr3 stale)
          (Machine.allocateMemPage false false cr3 stale ((info, a), false) va) pages := rfl
    rw [hplain, hmem]
    generalize Machine.allocatePage false false cr3 (a, none) va = st at hround
    obtain ⟨c, stop⟩ := st
    cases stop with
    | none =>
      rw [(hround c).1 rfl]
      have hnext : info.next.exec = info.exec := by simp only [AllocInfo.next]
      exact ih (info.next_aod.trans haod) (hnext.trans hexec)
    | some stop =>
      obtain ⟨hstop, hopen⟩ := (hround c).2 (Option.some_ne_none stop)
      rw [Machine.allocatePage_stopped _ _ _ (Option.some_ne_none stop), Machine.allocateMem_stopped _ _ _ _ _ hstop]
      exact ⟨fun h => absurd (Prod.mk.inj h).2 (by simp), fun _ => ⟨hstop, hopen⟩⟩

/-- A request of `repair_memory` is finished when the rounds go through its pages. -/
theorem Machine.repairRound_eq (va : ℕ) :
    (run (Machine.allocatePage false false a.activePage) (a, none) (Machine.allocatePages va 0x1000) = (b, none) →
        Machine.repairRound (a, false) va = (b, false)) ∧
      ((run (Machine.allocatePage false false a.activePage) (a, none) (Machine.allocatePages va 0x1000)).2 ≠ none →
        (Machine.repairRound (a, false) va).2 = true) := by
  have hrounds := @Machine.allocateMemRounds_eq a.activePage a b
    { Machine.repairRequest va with
      start := align va
      amount := pageAlignUp (add64 0x1000 (va - align va)) } rfl rfl (fun _ => 0) (Machine.allocatePages va 0x1000)
  have hround : Machine.repairRound (a, false) va =
      let r := a.allocateMem (Machine.repairRequest va) false false a.activePage fun _ => 0
      (r.2, !r.1.finished) := rfl
  rw [hround]
  unfold Machine.allocateMem
  dsimp only [Machine.repairRequest] at hrounds ⊢
  constructor
  · intro h
    obtain ⟨info', hrun⟩ := hrounds.1 h
    rw [hrun]
    rfl
  · intro h
    obtain ⟨hstop, hopen⟩ := hrounds.2 h
    rw [if_pos hstop, hopen]
    rfl

end Requests

/-- The pages that `repair_memory` allocates for stored addresses. -/
def pagesOf (stored : List ℕ) : List ℕ := stored.flatMap fun va => Machine.allocatePages va 0x1000

section Rounds

variable {m a : Machine} {done : List ℕ}

/-- The rounds of `repair_memory` are those of `allocate` over all their pages. -/
theorem Framed.repair (h : Framed {align m.activePage} m.activePage done m a) (stored : List ℕ)
    (hout : ∀ p ∈ pagesOf stored, pmlIndex p ≠ 510) :
    (∀ b, Lib.run (Machine.allocatePage false false m.activePage) (a, none) (pagesOf stored) = (b, none) →
        Lib.run Machine.repairRound (a, false) stored = (b, false)) ∧
      ((Lib.run (Machine.allocatePage false false m.activePage) (a, none) (pagesOf stored)).2 ≠ none →
        (Lib.run Machine.repairRound (a, false) stored).2 = true) := by
  induction stored generalizing done a with
  | nil =>
    refine ⟨fun b hb => ?_, fun hstop => absurd rfl hstop⟩
    rw [← (Prod.mk.inj hb).1]
    rfl
  | cons va stored ih =>
    have hpages : Lib.run (Machine.allocatePage false false m.activePage) (a, none) (pagesOf (va :: stored)) =
        Lib.run (Machine.allocatePage false false m.activePage)
          (Lib.run (Machine.allocatePage false false m.activePage) (a, none) (Machine.allocatePages va 0x1000))
          (pagesOf stored) := List.foldl_append
    have hrun : Lib.run Machine.repairRound (a, false) (va :: stored) =
        Lib.run Machine.repairRound (Machine.repairRound (a, false) va) stored := rfl
    have hround (b : Machine) := @Machine.repairRound_eq a b va
    rw [h.active] at hround
    rw [hpages, hrun]
    rcases h.run (Finset.mem_singleton_self _) (Machine.allocatePages va 0x1000)
      fun p hp => hout p (List.mem_append_left _ hp) with ⟨b, hb, hnext⟩ | ⟨hstop, -⟩
    · rw [(hround b).1 hb, hb]
      exact ih hnext fun p hp => hout p (List.mem_append_right _ hp)
    · have hflag := (hround a).2 hstop
      have hstuck : Lib.run Machine.repairRound (Machine.repairRound (a, false) va) stored =
          Machine.repairRound (a, false) va := run_fixed fun _ _ => if_pos hflag
      rw [hstuck, Machine.allocatePage_stopped _ _ _ hstop]
      refine ⟨fun b hb => absurd ?_ hstop, fun _ => hflag⟩
      rw [hb]

/-- `repair_memory` succeeds when the frames suffice and no page maps the frame at zero, and it has then allocated its
pages. -/
theorem Mappable.repairMemory (h : Mappable {align m.activePage} m) (stored : List ℕ)
    (hout : ∀ p ∈ pagesOf stored, pmlIndex p ≠ 510) :
    ((m.repairMemory .allocondem stored).1 = true ↔ (∀ p ∈ pagesOf stored, ¬ MapsZero m.memory m.activePage p) ∧
        frameNeed m.memory m.activePage (pagesOf stored) ≤ (freeFrames m.framePool).length) ∧
      ((m.repairMemory .allocondem stored).1 = true → Framed {align m.activePage} m.activePage (pagesOf stored) m
        (m.repairMemory .allocondem stored).2.2) := by
  have hstart : Framed {align m.activePage} m.activePage [] m m := .refl h
  have hroot : align m.activePage ∈ ({align m.activePage} : Finset ℕ) := Finset.mem_singleton_self _
  have hresult : m.repairMemory .allocondem stored =
      let st := run Machine.repairRound (m, false) stored
      (!st.2, st.2, st.1) := rfl
  obtain ⟨hgoes, hstops⟩ := hstart.repair stored hout
  rw [hresult, ← h.run_iff hroot (pagesOf stored) hout]
  rcases hstart.run hroot (pagesOf stored) hout with ⟨b, hrun, hall⟩ | ⟨hstop, -⟩
  · rw [hgoes b hrun, hrun]
    exact ⟨iff_of_true rfl rfl, fun _ => hall⟩
  · dsimp only
    rw [hstops hstop]
    exact ⟨iff_of_false (by decide) hstop, fun htrue => absurd htrue (by decide)⟩

end Rounds

section Mix

variable (m : Machine) (address size n : ℕ)

/-- Round `n` stops the check at a swapped page after an on-demand one. -/
def MixesAt : Prop := PassedBefore m address size n ∧ InRange address size n ∧ Mixes m address .onDemand .swapped n

end Mix

section Stops

variable {m : Machine} {address size n : ℕ}

/-- The first waiting page stays the first. -/
theorem firstWaiting_mono {i : ℕ} {c : PageClass} (h : firstWaiting m address i = some c) (hi : i ≤ n) :
    firstWaiting m address n = some c := by
  induction n, hi using Nat.le_induction with
  | base => exact h
  | succ n _ ih =>
    cases hwaiting : (m.pageClass (nthPage address n)).waiting with
    | false => rw [(waiting_succ_of_not hwaiting).1, ih]
    | true =>
      rw [(waiting_succ_of_waiting hwaiting).1, ih]
      rfl

/-- No waiting page is forgotten. -/
theorem waitingCount_mono {i : ℕ} (hi : i ≤ n) : waitingCount m address i ≤ waitingCount m address n := by
  induction n, hi using Nat.le_induction with
  | base => exact Nat.le_refl _
  | succ n _ ih =>
    cases hwaiting : (m.pageClass (nthPage address n)).waiting with
    | false => rwa [(waiting_succ_of_not hwaiting).2]
    | true =>
      rw [(waiting_succ_of_waiting hwaiting).2]
      exact Nat.le_succ_of_le ih

/-- Before such a stop only on-demand pages wait. -/
theorem MixesAt.onDemand (h : MixesAt m address size n) {i : ℕ} (hi : i < n)
    (hwaiting : (m.pageClass (nthPage address i)).waiting = true) : m.pageClass (nthPage address i) = .onDemand := by
  obtain ⟨hpassed, -, -, hfirst, hroom⟩ := h
  cases hclass : m.pageClass (nthPage address i) with
  | onDemand => rfl
  | swapped =>
    rcases firstWaiting_cases m address i with hnone | hother | hdemand
    · have hnext := (waiting_succ_of_waiting hwaiting).1
      rw [hnone, hclass] at hnext
      exact absurd ((firstWaiting_mono hnext hi).symm.trans hfirst) (by decide)
    · exact absurd ((firstWaiting_mono hother (Nat.le_of_lt hi)).symm.trans hfirst) (by decide)
    · have hcount : waitingCount m address i ≤ waitingCount m address n := waitingCount_mono (Nat.le_of_lt hi)
      exact absurd ⟨hclass, hdemand, by omega⟩ (hpassed i hi).2.2
  | missing => rw [hclass] at hwaiting; cases hwaiting
  | present => rw [hclass] at hwaiting; cases hwaiting
  | idle => rw [hclass] at hwaiting; cases hwaiting

/-- The rounds before it are ordinary ones. -/
theorem MixesAt.ordinary (h : MixesAt m address size n) : ∀ i < n, InRange address size i ∧
    m.pageClass (nthPage address i) ≠ .missing ∧ ¬ OtherKind m address i := by
  intro i hi
  obtain ⟨hrange, hrefused, -⟩ := h.1 i hi
  refine ⟨hrange, fun hmissing => hrefused (Or.inl hmissing), ?_⟩
  rintro ⟨hwaiting, first, hfirst, hother⟩
  have hsame := (firstWaiting_mono hfirst (Nat.le_of_lt hi)).symm.trans h.2.2.2.1
  exact hother ((Option.some.inj hsame).trans (h.onDemand hi hwaiting).symm)

/-- The page that stops the check is of another kind. -/
theorem MixesAt.otherKind (h : MixesAt m address size n) : OtherKind m address n := by
  obtain ⟨-, -, hclass, hfirst, -⟩ := h
  exact ⟨by rw [hclass]; rfl, _, hfirst, by rw [hclass]; decide⟩

/-- The check is stopped by one round. -/
theorem MixesAt.unique (h : MixesAt m address size n) {k : ℕ} (hk : MixesAt m address size k) : k = n := by
  rcases Nat.lt_trichotomy k n with hlt | heq | hgt
  · exact absurd hk.2.2 (h.1 k hlt).2.2
  · exact heq
  · exact absurd h.2.2 (hk.1 n hgt).2.2

/-- The check stays inside its buffer. -/
theorem MixesAt.room (h : MixesAt m address size n) : RoomForWaiting m address size maxCheckedElements 0 := by
  intro k hordinary _ _
  have hroom := h.2.2.2.2
  rcases Nat.lt_or_ge n k with hlt | hge
  · exact absurd h.otherKind (hordinary n hlt).2.2
  · have hcount : waitingCount m address k ≤ waitingCount m address n := waitingCount_mono hge
    omega

/-- The check returns `ms_allocondem` with the addresses of the on-demand pages. -/
theorem MixesAt.checkMemState (h : MixesAt m address size n) (fuel : ℕ) : m.checkMemState (n + (fuel + 1)) address size =
    some (.allocondem, (waitingRounds m address n).map (nthPage address)) := by
  have hscan := scansTo_of_ordinary 0 maxCheckedElements h.ordinary
  have hrange := h.2.1
  unfold InRange at hrange
  have hvalue : ∀ i ∈ waitingRounds m address n, m.pageValue (nthPage address i) = nthPage address i := by
    intro i hi
    obtain ⟨hlt, hwaiting⟩ := List.mem_filter.mp hi
    have hclass := h.onDemand (List.mem_range.mp hlt) hwaiting
    unfold Machine.pageClass at hclass
    unfold Machine.pageValue
    cases hslot : (m.getPage (nthPage address i) m.activePage false false).1 with
    | none => rfl
    | some p =>
      rw [hslot] at hclass
      dsimp only at hclass ⊢
      split at hclass
      · exact absurd hclass (by decide)
      split at hclass
      · exact absurd hclass (by decide)
      split at hclass
      · exact absurd hclass (by decide)
      · rename_i hswapped
        rw [if_neg hswapped]
  rw [checkMemState_eq, hscan.checkMemStateInto (fuel + 1), Machine.checkPages, if_pos hrange,
    checkPage_other h.otherKind (by rw [Nat.zero_add]; exact h.2.2.2.2), h.2.2.2.1]
  unfold scanned
  dsimp only [Option.map_some]
  rw [List.zipIdx_map_fst, List.map_congr_left hvalue]
  rfl

/-- A check that is stopped so is repaired. -/
theorem MixesAt.validateAddress (h : MixesAt m address size n) {fuel : ℕ} {r : Bool × Bool × Machine}
    (hr : m.validateAddress fuel address size = some r) :
    r = m.repairMemory .allocondem ((waitingRounds m address n).map (nthPage address)) := by
  rcases Nat.lt_or_ge n fuel with hlong | hshort
  · obtain ⟨rest, rfl⟩ : ∃ rest, fuel = n + (rest + 1) := ⟨fuel - n - 1, by omega⟩
    rw [Machine.validateAddress, h.checkMemState rest] at hr
    exact (Option.some.inj hr).symm
  · rw [Machine.validateAddress, checkMemState_short h.1 hshort] at hr
    cases hr

end Stops

end Cthulhu
