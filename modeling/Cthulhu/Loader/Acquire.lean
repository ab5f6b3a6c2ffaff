import Cthulhu.Loader.OwnPages
import Cthulhu.Memory.Inverse
import Cthulhu.Process.Grants

/-!
# Pages that `allocate` maps for a process

Every page that `allocate` maps where nothing was owns its frame, and the frames owned before keep
what they hold, also where the request takes in pages that are mapped already.
-/

namespace Cthulhu

open Lib

section Acquire

variable {roots : Finset ℕ} {cr3 : ℕ} {m m' : Machine}

/-- The flags of `allocate_frame` without execute-disable keep the frame of an entry. -/
theorem align_pageFlags_of_lt {x : ℕ} (kernel readonly : Bool) (h : x < 2 ^ 62) :
    align (Machine.pageFlags x kernel readonly false) = align x := by
  rw [← frameOf_of_lt (pageFlags_lt kernel readonly h), frameOf_pageFlags, frameOf_of_lt h]

/-- Every address of a range is on one of its pages. -/
theorem rangePages_cover {start amount j : ℕ} (hj : j < amount) :
    ∃ p ∈ rangePages start amount, SamePage (start + j) p := by
  have hpage := align_le (start + j)
  refine ⟨align (start + j), mem_pageRange.mpr ⟨(start + j) / 0x1000 - start / 0x1000, ?_, by omega⟩, ?_⟩
  · unfold align
    omega
  · unfold SamePage align
    omega

/-- The page is neither mapped nor reserved on demand, or it owns its frame. -/
def Spare (roots : Finset ℕ) (cr3 : ℕ) (m : Machine) (va : ℕ) : Prop :=
  pageStatus (leafEntry m.memory cr3 va) = .absent ∨ Owned roots cr3 m va

/-- What mapping pages for a process does: the pages own their frames, and nothing that was owned before
is lost. -/
structure Acquired (roots : Finset ℕ) (cr3 : ℕ) (pages : List ℕ) (m m' : Machine) : Prop where
  ready : Mappable roots m'
  kept : OwnedKept roots cr3 m m'
  owned : ∀ p ∈ pages, Owned roots cr3 m' p
  nonzero : ∀ p ∈ pages, pageFrame cr3 m' p ≠ 0
  others : ∀ va, (∀ p ∈ pages, ¬ SamePage va p) → leafEntry m'.memory cr3 va = leafEntry m.memory cr3 va

/-- A page that is present is not absent. -/
theorem Spare.owned {va : ℕ} (h : Spare roots cr3 m va) (hpresent : present (leafEntry m.memory cr3 va) = true) :
    Owned roots cr3 m va := by
  refine h.resolve_left fun habsent => ?_
  unfold pageStatus at habsent
  rw [if_pos hpresent] at habsent
  exact absurd habsent (by simp)

/-- A page that is not present carries no marker. -/
theorem Spare.unmarked {va : ℕ} (h : Spare roots cr3 m va) (hpresent : present (leafEntry m.memory cr3 va) = false) :
    (bit (leafEntry m.memory cr3 va) 1 && bit (leafEntry m.memory cr3 va) 3) = false := by
  rcases h with habsent | howned
  · unfold pageStatus at habsent
    rw [if_neg (by rw [hpresent]; decide)] at habsent
    split at habsent
    · exact absurd habsent (by simp)
    · rename_i hmarked
      simpa using hmarked
  · rw [howned.present] at hpresent
    exact absurd hpresent (by decide)

/-- `allocate_frame` at a page that owns its frame rewrites its flags. -/
theorem Mappable.rewritten_acquired (h : Mappable roots m) (hcr3 : align cr3 ∈ roots) {va pt : ℕ}
    (hwalk : paging.walk m.memory 0 (align cr3) (indices va) = some pt) (howned : Owned roots cr3 m va)
    (hne : pageFrame cr3 m va ≠ 0) (kernel readonly : Bool) (hready : Mappable roots m') (hm : m'.memory =
      Links.store m.memory pt (tableIndex va) (Machine.pageFlags (align (leafEntry m.memory cr3 va)) kernel readonly false)) :
    Acquired roots cr3 [va] m m' := by
  have hslot := leafSlot_of_walk hcr3 hwalk
  have hbound := align_le (leafEntry m.memory cr3 va)
  have hlow : align (leafEntry m.memory cr3 va) < 2 ^ 62 := lt_of_le_of_lt hbound.1 howned.low
  obtain ⟨hsame, hothers⟩ := h.leafEntry_store hcr3 hwalk (fun _ _ _ _ => rfl) hm
  have hchild : paging.child 3 (tableIndex va) (Machine.pageFlags (align (leafEntry m.memory cr3 va)) kernel readonly false) =
      paging.child 3 (tableIndex va) (m.memory pt (tableIndex va)) := by
    rw [← leafEntry_of_some hwalk, child_leaf, child_leaf, present_pageFlags, frameOf_pageFlags, frameOf_align,
      howned.present]
  obtain ⟨-, hrefs⟩ := store_same (p := ⟨pt, tableIndex va⟩) h.growable.leveled (by decide) hslot.1 hchild
  rw [← hm] at hrefs
  have hkept : OwnedKept roots cr3 m m' := by
    intro page hpage
    have hframe : m'.memory (pageFrame cr3 m page) = m.memory (pageFrame cr3 m page) := by
      funext i
      rw [hm, Links.store_of_ne _ _ fun hhere => hpage.ne_table hcr3 hslot hhere.1]
    by_cases hpva : SamePage page va
    · have hentry := hsame page hpva
      have hplace : pageFrame cr3 m' page = pageFrame cr3 m page := by
        unfold pageFrame
        rw [hentry, hpva.leafEntry_eq m.memory cr3, align_pageFlags_of_lt kernel readonly hlow, align_align]
      refine ⟨hpage.next ?_ ?_ hplace (hrefs _), hplace, hframe⟩
      · rw [hentry]
        exact present_pageFlags _ _ _ _
      · rw [hentry]
        exact pageFlags_lt kernel readonly hlow
    · have hentry := hothers page hpva
      have hplace : pageFrame cr3 m' page = pageFrame cr3 m page := by
        unfold pageFrame
        rw [hentry]
      exact ⟨hpage.next (by rw [hentry]; exact hpage.present) (by rw [hentry]; exact hpage.low) hplace (hrefs _),
        hplace, hframe⟩
  refine ⟨hready, hkept, fun p hp => ?_, fun p hp => ?_, fun page hpage => hothers page (hpage va List.mem_cons_self)⟩
  · rw [List.mem_singleton.mp hp]
    exact (hkept va howned).1
  · rw [List.mem_singleton.mp hp, (hkept va howned).2.1]
    exact hne

/-- `allocate_frame` at a page that is absent gives it a frame of its own. -/
theorem Mappable.fresh_acquired (h : Mappable roots m) (hcr3 : align cr3 ∈ roots) {va pt f : ℕ} {filled : Memory}
    (hwalk : paging.walk m.memory 0 (align cr3) (indices va) = some pt)
    (habsent : present (leafEntry m.memory cr3 va) = false) (kernel readonly : Bool) (hready : Mappable roots m')
    (hf : f = (getFreeFrame m.framePool).1) (hne : f ≠ 0) (hoff : ∀ n, n ≠ f → filled n = m.memory n)
    (hm : m'.memory = Links.store filled pt (tableIndex va) (Machine.pageFlags f kernel readonly false)) :
    Acquired roots cr3 [va] m m' := by
  have hslot := leafSlot_of_walk hcr3 hwalk
  obtain ⟨hframe, -, -, -, -, -⟩ := h.growable.pool.taken hf hne
  have hlow := h.growable.pool.frame_lt h.below hframe
  have haligned := (h.growable.pool.frame_aligned hframe).1
  obtain ⟨hzero, hnot⟩ := h.growable.fresh hf hne
  obtain ⟨hsame, hothers⟩ := h.leafEntry_store hcr3 hwalk (fun l hl T hT => hoff T fun heq => hnot ⟨l, hl, heq ▸ hT⟩) hm
  have hload : present (m.load ⟨pt, tableIndex va⟩) = false := by
    rw [leafEntry_of_some hwalk] at habsent
    exact habsent
  obtain ⟨-, -, hrefs⟩ := h.growable.link_effect (p := ⟨pt, tableIndex va⟩) (w := Machine.pageFlags f kernel readonly false)
    (by decide) hslot.1 hslot.2 (child_of_not_present hload) (by
      rw [child_leaf, present_pageFlags, if_pos rfl, frameOf_pageFlags, frameOf_of_lt hlow, align_of_mod haligned])
    hf hne hoff fun hdepth => absurd hdepth (by decide)
  rw [← hm] at hrefs
  have hkept : OwnedKept roots cr3 m m' := by
    intro page hpage
    have hpva : ¬ SamePage page va := by
      intro hpva
      have hpresent := hpage.present
      rw [hpva.leafEntry_eq m.memory cr3, habsent] at hpresent
      exact absurd hpresent (by decide)
    have hpf : pageFrame cr3 m page ≠ f := by
      intro heq
      have hone : references m.memory roots (pageFrame cr3 m page) = 1 := hpage.single
      rw [heq, hzero] at hone
      exact absurd hone (by decide)
    have hentry := hothers page hpva
    have hplace : pageFrame cr3 m' page = pageFrame cr3 m page := by
      unfold pageFrame
      rw [hentry]
    refine ⟨hpage.next (by rw [hentry]; exact hpage.present) (by rw [hentry]; exact hpage.low) hplace ?_, hplace, ?_⟩
    · rw [hrefs, if_neg hpf, Nat.add_zero]
    · funext i
      rw [hm, Links.store_of_ne _ _ fun hhere => hpage.ne_table hcr3 hslot hhere.1, hoff _ hpf]
  have hentry := hsame va rfl
  refine ⟨hready, hkept, fun p hp => ?_, fun p hp => ?_, fun page hpage => hothers page (hpage va List.mem_cons_self)⟩
  · rw [List.mem_singleton.mp hp]
    refine ⟨by rw [hentry]; exact present_pageFlags _ _ _ _, by rw [hentry]; exact pageFlags_lt kernel readonly hlow, ?_⟩
    rw [hentry, align_pageFlags_of_lt kernel readonly hlow, align_of_mod haligned, hrefs, hzero, if_pos rfl]
  · rw [List.mem_singleton.mp hp]
    unfold pageFrame
    rw [hentry, align_pageFlags_of_lt kernel readonly hlow, align_of_mod haligned]
    exact hne

/-- Nothing is acquired to begin with. -/
theorem Acquired.refl (h : Mappable roots m) : Acquired roots cr3 [] m m :=
  ⟨h, fun _ hva => ⟨hva, rfl, rfl⟩, fun _ hp => absurd hp (by simp), fun _ hp => absurd hp (by simp), fun _ _ => rfl⟩

/-- Pages acquired one after the other. -/
theorem Acquired.trans {pages pages' : List ℕ} {m'' : Machine} (h : Acquired roots cr3 pages m m')
    (h' : Acquired roots cr3 pages' m' m'') : Acquired roots cr3 (pages ++ pages') m m'' := by
  refine ⟨h'.ready, h.kept.trans h'.kept, fun p hp => ?_, fun p hp => ?_, fun va hva => ?_⟩
  · rcases List.mem_append.mp hp with hold | hnew
    · exact (h'.kept p (h.owned p hold)).1
    · exact h'.owned p hnew
  · rcases List.mem_append.mp hp with hold | hnew
    · rw [(h'.kept p (h.owned p hold)).2.1]
      exact h.nonzero p hold
    · exact h'.nonzero p hnew
  · rw [h'.others va fun p hp => hva p (List.mem_append_right _ hp), h.others va fun p hp => hva p (List.mem_append_left _ hp)]

/-- Walks that allocate acquire no page. -/
theorem Mappable.grown_acquired (h : Mappable roots m) (hcr3 : align cr3 ∈ roots) (hgrown : Grown roots m m') :
    Acquired roots cr3 [] m m' :=
  ⟨h.grown hgrown, h.grown_owned hcr3 hgrown, fun _ hp => absurd hp (by simp), fun _ hp => absurd hp (by simp),
    fun va _ => hgrown.leafEntry h.growable hcr3 va⟩

/-- The same memory and pool hold the same pages. -/
theorem Acquired.same {pages : List ℕ} {m'' : Machine} (h : Acquired roots cr3 pages m m')
    (hpool : m''.framePool = m'.framePool) (hmem : m''.memory = m'.memory) : Acquired roots cr3 pages m m'' := by
  have hready := h.ready.same hpool hmem
  obtain ⟨-, hkept, howned, hnonzero, hothers⟩ := h
  have hown (va : ℕ) (hva : Owned roots cr3 m' va) : Owned roots cr3 m'' va :=
    ⟨by rw [hmem]; exact hva.present, by rw [hmem]; exact hva.low, by rw [hmem]; exact hva.single⟩
  refine ⟨hready, fun va hva => ?_, fun p hp => hown p (howned p hp), fun p hp => ?_,
    fun va hva => by rw [hmem]; exact hothers va hva⟩
  · obtain ⟨hnew, hframe, hwords⟩ := hkept va hva
    refine ⟨hown va hnew, ?_, by rw [hmem]; exact hwords⟩
    rw [← hframe]
    unfold pageFrame
    rw [hmem]
  · unfold pageFrame
    rw [hmem]
    exact hnonzero p hp

/-- What can be acquired stays so. -/
theorem Acquired.spare {pages : List ℕ} (h : Acquired roots cr3 pages m m') {va : ℕ} (hva : Spare roots cr3 m va) :
    Spare roots cr3 m' va := by
  by_cases hpage : ∃ p ∈ pages, SamePage va p
  · obtain ⟨p, hp, hsame⟩ := hpage
    exact Or.inr ((h.owned p hp).of_samePage hsame)
  · push Not at hpage
    rcases hva with habsent | howned
    · left
      rw [h.others va hpage]
      exact habsent
    · exact Or.inr (h.kept va howned).1

/-- A round of `allocate` that goes on acquires its page. -/
theorem Mappable.allocatePage_acquired (h : Mappable roots m) (hcr3 : align cr3 ∈ roots) {va : ℕ}
    (hva : pmlIndex va ≠ 510) (hspare : Spare roots cr3 m va) (kernel readonly : Bool)
    (hdone : (Machine.allocatePage kernel readonly cr3 (m, none) va).2 = none) :
    Acquired roots cr3 [va] m (Machine.allocatePage kernel readonly cr3 (m, none) va).1 := by
  have hlocked : Mappable roots (m.lock .frame) := h.same rfl rfl
  obtain ⟨hgrown, hresult⟩ := hlocked.growable.getPage hcr3 hva !kernel
  have hlock : Acquired roots cr3 [] m (m.lock .frame) := (Acquired.refl h).same rfl rfl
  have hwalked : Acquired roots cr3 [] m ((m.lock .frame).getPage va cr3 true !kernel).2 :=
    hlock.trans (hlocked.grown_acquired hcr3 hgrown)
  unfold Machine.allocatePage at hdone ⊢
  simp only [ne_eq, not_true_eq_false, if_false] at hdone ⊢
  generalize (m.lock .frame).getPage va cr3 true (!kernel) = r at hresult hwalked hdone ⊢
  rcases hresult with ⟨hnone, -⟩ | ⟨pt, hslot, hwalk⟩
  · rw [hnone] at hdone
    exact absurd hdone (by simp)
  · rw [hslot] at hdone ⊢
    dsimp only at hdone ⊢
    have hleaf := leafSlot_of_walk hcr3 hwalk
    have hspare' := hwalked.spare hspare
    have hload : r.2.load ⟨pt, tableIndex va⟩ = leafEntry r.2.memory cr3 va := (leafEntry_of_some hwalk).symm
    have hready := hwalked.ready.allocateFrame hleaf kernel readonly false
    have hgiven := hwalked.ready.growable.frameGiven hwalked.ready.below hleaf kernel readonly false
    generalize r.2.allocateFrame ⟨pt, tableIndex va⟩ kernel readonly false = given at hready hgiven hdone ⊢
    have hne : given.1 ≠ 0 := by
      intro hzero
      rw [if_pos hzero] at hdone
      exact absurd hdone (by simp)
    rw [if_neg hne]
    suffices hall : Acquired roots cr3 [va] m given.2 from hall.same rfl rfl
    cases hgiven with
    | rewritten hpresent hentry hm =>
      rw [hload] at hpresent hm
      have howned := hspare'.owned hpresent
      have hlow := lt_of_le_of_lt (align_le (leafEntry r.2.memory cr3 va)).1 howned.low
      have hframe : given.1 = pageFrame cr3 r.2 va := by
        rw [hentry, hload, align_pageFlags_of_lt kernel readonly hlow, align_align]
        rfl
      exact hwalked.trans (hwalked.ready.rewritten_acquired hcr3 hwalk howned (hframe ▸ hne) kernel readonly hready
        (congrArg Machine.memory hm))
    | exhausted habsent hnone hentry hm => exact absurd hentry hne
    | fresh f filled habsent hf hframe hoff hentry hmem hpool hactive =>
      rw [hload] at habsent hmem
      rw [hspare'.unmarked habsent, if_neg (by decide)] at hmem
      exact hwalked.trans (hwalked.ready.fresh_acquired hcr3 hwalk habsent kernel readonly hready hf hframe hoff hmem)

/-- The loop of `allocate` that reaches its end acquires its pages. -/
theorem Mappable.run_acquired (h : Mappable roots m) (hcr3 : align cr3 ∈ roots) (kernel readonly : Bool) (pages : List ℕ)
    (hout : ∀ p ∈ pages, pmlIndex p ≠ 510) (hspare : ∀ p ∈ pages, Spare roots cr3 m p)
    (hdone : (run (Machine.allocatePage kernel readonly cr3) (m, none) pages).2 = none) :
    Acquired roots cr3 pages m (run (Machine.allocatePage kernel readonly cr3) (m, none) pages).1 := by
  induction pages generalizing m with
  | nil => exact Acquired.refl h
  | cons va pages ih =>
    rw [List.forall_mem_cons] at hout hspare
    have hrun : run (Machine.allocatePage kernel readonly cr3) (m, none) (va :: pages) =
        run (Machine.allocatePage kernel readonly cr3) (Machine.allocatePage kernel readonly cr3 (m, none) va) pages := rfl
    rw [hrun] at hdone ⊢
    cases hstop : (Machine.allocatePage kernel readonly cr3 (m, none) va).2 with
    | some addr =>
      -- a loop that stopped does not reach its end
      rw [Machine.allocatePage_stopped _ _ _ (by rw [hstop]; simp), hstop] at hdone
      exact absurd hdone (by simp)
    | none =>
      have hfirst := h.allocatePage_acquired hcr3 hout.1 hspare.1 kernel readonly hstop
      have hstate : Machine.allocatePage kernel readonly cr3 (m, none) va =
          ((Machine.allocatePage kernel readonly cr3 (m, none) va).1, none) := Prod.ext rfl hstop
      rw [hstate] at hdone ⊢
      exact hfirst.trans (ih hfirst.ready hout.2 (fun p hp => hfirst.spare (hspare.2 p hp)) hdone)

/-- An `allocate` that returns true acquires the pages of its range. -/
theorem Mappable.allocate_acquired (h : Mappable roots m) (hcr3 : align cr3 ∈ roots) {start amount : ℕ}
    (kernel readonly : Bool) (hend : start + amount ≤ 2 ^ 64 - 0x1000)
    (hout : ∀ p ∈ rangePages start amount, pmlIndex p ≠ 510)
    (hspare : ∀ p ∈ rangePages start amount, Spare roots cr3 m p)
    (htrue : (m.allocate start amount kernel readonly cr3).1 = true) :
    Acquired roots cr3 (rangePages start amount) m (m.allocate start amount kernel readonly cr3).2 := by
  unfold Machine.allocate at htrue ⊢
  rw [allocatePages_range hend] at htrue ⊢
  dsimp only at htrue ⊢
  cases hstop : (run (Machine.allocatePage kernel readonly cr3) (m, none) (rangePages start amount)).2 with
  | some addr =>
    rw [hstop] at htrue
    exact absurd htrue (by simp)
  | none => exact h.run_acquired hcr3 kernel readonly _ hout hspare hstop

end Acquire

end Cthulhu
