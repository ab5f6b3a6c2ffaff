import Cthulhu.Memory.AccessRights

/-!
# When the frames suffice

The rounds of `allocate` for user mode over any list of pages, which may name a page twice. They go through the whole
list exactly when no page of it maps the frame at zero and there are as many free frames as its pages need. Every page
of the list is then present for user mode, and no other page has changed.
-/

namespace Cthulhu

open Lib

section Round

variable {roots : Finset ℕ} {m a b : Machine} {cr3 va : ℕ}

/-- The flags of a page are not changed by setting them again. -/
theorem align_pageFlags_pageFlags (x : ℕ) :
    align (Machine.pageFlags (align (Machine.pageFlags x false false false)) false false false) =
      align (Machine.pageFlags x false false false) := by
  have hbit : bit (Machine.pageFlags x false false false) 63 = false := by
    unfold Machine.pageFlags
    exact bit_setBit_self _ _ _
  generalize Machine.pageFlags x false false false = w at hbit ⊢
  have hlow : align (setBit (setBit (setBit (align w) 0 true) 1 true) 2 true) = align w := by
    rw [align_setBit _ _ (by decide), align_setBit _ _ (by decide), align_setBit _ _ (by decide), align_align]
  unfold Machine.pageFlags
  change align (setBit (setBit (setBit (setBit (align w) 0 true) 1 true) 2 true) 63 false) = align w
  generalize setBit (setBit (setBit (align w) 0 true) 1 true) 2 true = y at hlow ⊢
  have hdiv := setBit_div y 63 false
  have hmod := setBit_mod y 63 false
  have hself := bit_setBit_self y 63 false
  unfold bit at hbit hself
  rw [decide_eq_false_iff_not] at hbit hself
  unfold align at hlow ⊢
  omega

/-- A walk takes the frames that its page needs, and it fails only when none is left. -/
theorem Mappable.getPage_balanced (h : Mappable roots m) (hcr3 : align cr3 ∈ roots) (hva : pmlIndex va ≠ 510) (user : Bool) :
    (∀ L, va ∈ L → Balanced cr3 L m (m.getPage va cr3 true user).2) ∧
      ((m.getPage va cr3 true user).1 = none → freeFrames (m.getPage va cr3 true user).2.framePool = []) := by
  have hrule := h.growable.getPage_rule hcr3 hva user
    (fun _ _ b => Mappable roots b ∧ ∀ L, va ∈ L → Balanced cr3 L m b)
    (fun b => freeFrames b.framePool = [] ∧ ∀ L, va ∈ L → Balanced cr3 L m b)
    ⟨h, fun _ _ => .same rfl rfl⟩ fun l hl T b r hb hwalk hgood hdescent => ?_
  · rcases hrule with ⟨hnone, hempty, hbalance⟩ | ⟨pt, hslot, ⟨-, hbalance⟩, -, -⟩
    · exact ⟨hbalance, fun _ => hempty⟩
    · exact ⟨hbalance, fun hnone => absurd (hslot.symm.trans hnone) (by simp)⟩
  · obtain ⟨hready, hbalance⟩ := hgood
    obtain ⟨hT, hi⟩ := indices_slot hcr3 hl hwalk
    obtain ⟨hnext, -⟩ := indices_take va hl
    have hgrow := (hdescent.grow hl hT hi).1
    cases hdescent with
    | passed C hchild => exact ⟨fun hnone => absurd hnone (by simp), fun _ _ => ⟨hready, hbalance⟩⟩
    | exhausted hold hzero =>
      exact ⟨fun _ => ⟨hb.pool.freeFrames_of_exhausted hzero, fun L hL => (hbalance L hL).trans (.same rfl rfl)⟩,
        fun C hC => absurd hC (by simp)⟩
    | linked w f b' hold hw hf hne hpool hmem =>
      refine ⟨fun hnone => absurd hnone (by simp), fun C hC => ⟨hready.grown (.tail .refl hgrow), fun L hL => ?_⟩⟩
      have hpath : ∀ i ∈ (indices va).take l, i ∈ paging.slots := fun i hi => indices_mem va i (List.mem_of_mem_take hi)
      refine (hbalance L hL).trans (hready.tree.balanced_link hb hcr3 hpath (length_indices_take va (Nat.le_of_lt hl))
        (Nat.lt_succ_of_lt hl) hwalk hold hw hf hne (cleared_off b.memory f)
        (fun _ j _ => by rw [Function.update_self]) ⟨va, hL, ?_⟩ hpool hmem)
      rw [← hnext]
      match l, hl with
      | 0, _ => simp [places]
      | 1, _ => simp [places]
      | 2, _ => simp [places]

/-- What a round of `allocate` for user mode does to the frames. -/
structure FramedRound (cr3 va : ℕ) (m : Machine) (r : Machine × Option ℕ) : Prop where
  balance : ∀ L, va ∈ L → Balanced cr3 L m r.1
  nonzero : r.2 = none → ¬ MapsZero r.1.memory cr3 va
  empty : r.2 ≠ none → present (leafEntry r.1.memory cr3 va) = false → freeFrames r.1.framePool = []

/-- Every round does this. -/
theorem Mappable.framedRound (h : Mappable roots m) (hcr3 : align cr3 ∈ roots) (hva : pmlIndex va ≠ 510) :
    FramedRound cr3 va m (Machine.allocatePage false false cr3 (m, none) va) := by
  have hlocked : Mappable roots (m.lock .frame) := h.same rfl rfl
  obtain ⟨hgrown, hresult⟩ := hlocked.growable.getPage hcr3 hva true
  obtain ⟨hwalkBalance, hempty⟩ := hlocked.getPage_balanced hcr3 hva true
  have hwalked := hlocked.grown hgrown
  have hstart (L : List ℕ) (hL : va ∈ L) : Balanced cr3 L m ((m.lock .frame).getPage va cr3 true true).2 :=
    Balanced.trans (.same rfl rfl) (hwalkBalance L hL)
  unfold Machine.allocatePage
  rw [if_neg (not_not.mpr rfl), Bool.not_false]
  dsimp only
  generalize (m.lock .frame).getPage va cr3 true true = r at hresult hwalked hempty hstart
  rcases hresult with ⟨hnone, -⟩ | ⟨pt, hslot, hwalk⟩
  · rw [hnone]
    exact ⟨hstart, fun hgo => absurd hgo (by simp), fun _ _ => hempty hnone⟩
  · rw [hslot]
    dsimp only
    have hleaf := leafSlot_of_walk hcr3 hwalk
    have hload : r.2.load ⟨pt, tableIndex va⟩ = leafEntry r.2.memory cr3 va := (leafEntry_of_some hwalk).symm
    have hgiven := hwalked.growable.frameGiven hwalked.below hleaf false false false
    generalize r.2.allocateFrame ⟨pt, tableIndex va⟩ false false false = given at hgiven
    cases hgiven with
    | rewritten hpresent hentry hm =>
      have hmem : given.2.memory = Links.store r.2.memory pt (tableIndex va)
          (Machine.pageFlags (align (leafEntry r.2.memory cr3 va)) false false false) := by
        rw [hm, hload]
        rfl
      obtain ⟨hsame, -⟩ := hwalked.leafEntry_store hcr3 hwalk (fun _ _ _ _ => rfl) hmem
      have hbalance (L : List ℕ) (hL : va ∈ L) : Balanced cr3 L m given.2 := by
        rw [hm]
        refine (hstart L hL).trans (hwalked.growable.balanced_rewrite hcr3 hleaf ?_)
        rw [child_leaf, child_leaf, present_pageFlags, frameOf_pageFlags, frameOf_align, hpresent]
      split
      next hzero =>
        refine ⟨hbalance, fun hgo => absurd hgo (by simp), fun _ habsent => ?_⟩
        dsimp only at habsent
        rw [hsame va rfl, present_pageFlags] at habsent
        exact absurd habsent (by decide)
      next hne =>
        refine ⟨fun L hL => (hbalance L hL).trans (.same rfl rfl), fun _ hzero => hne ?_, fun hstop => absurd rfl hstop⟩
        have hflags := hzero.2
        rw [show (given.2.unlock .frame).memory = given.2.memory from rfl, hsame va rfl, align_pageFlags_pageFlags] at hflags
        rw [hentry, hload, hflags]
    | exhausted habsent hnone hentry hm =>
      rw [if_pos hentry]
      refine ⟨fun L hL => (hstart L hL).trans ?_, fun hgo => absurd hgo (by simp), fun _ _ => ?_⟩
      · rw [hm]
        exact .same rfl rfl
      · rw [hm]
        exact hnone
    | fresh f filled habsent hf hne hoff hentry hmem hpool hactive =>
      rw [if_neg hentry]
      obtain ⟨hframe, -, -, -, -, -⟩ := hwalked.growable.pool.taken hf hne
      have hlt : f < 2 ^ 62 := hwalked.growable.pool.frame_lt hwalked.below hframe
      have hframeOf (exec : Bool) : frameOf (Machine.pageFlags f false false exec) = f := by
        rw [frameOf_pageFlags, frameOf_of_lt hlt, align_of_mod (hwalked.growable.pool.frame_aligned hframe).1]
      have hnot := (hwalked.growable.fresh hf hne).2
      have hagree : ∀ l < 4, ∀ T ∈ paging.tables r.2.memory roots l, filled T = r.2.memory T :=
        fun l hl T hT => hoff T fun heq => hnot ⟨l, hl, heq ▸ hT⟩
      obtain ⟨hsame, -⟩ := hwalked.leafEntry_store hcr3 hwalk hagree hmem
      refine ⟨fun L hL => ?_, fun _ hzero => hne ?_, fun hstop => absurd rfl hstop⟩
      · refine (hstart L hL).trans (Balanced.trans (hwalked.tree.balanced_link hwalked.growable hcr3 (indices_mem va)
          (show _ = 3 from rfl) (by decide) hwalk (child_of_not_present habsent) ?_ hf hne hoff
          (fun hdepth => absurd hdepth (by decide)) ⟨va, hL, by simp [places]⟩ hpool hmem) (.same rfl rfl))
        rw [child_leaf, present_pageFlags, if_pos rfl, hframeOf]
      · have hflags := hzero.2
        rw [show (given.2.unlock .frame).memory = given.2.memory from rfl, hsame va rfl] at hflags
        have hframeZero := congrArg frameOf hflags
        rw [frameOf_align, frameOf_pageFlags, frameOf_align, hframeOf] at hframeZero
        rw [hframeZero]
        rfl

end Round

/-- Where the loop stands: the pages gone through are present for user mode, no other page has changed, and the frames
taken are those that the pages needed. -/
structure Framed (roots : Finset ℕ) (cr3 : ℕ) (done : List ℕ) (m a : Machine) : Prop where
  ready : Mappable roots a
  active : a.activePage = m.activePage
  mapped : ∀ page, (∃ p ∈ done, SamePage page p) →
    present (leafEntry a.memory cr3 page) = true ∧ Writes (leafEntry a.memory cr3 page) ∧ ¬ MapsZero a.memory cr3 page
  before : ∀ p ∈ done, ¬ MapsZero m.memory cr3 p
  others : ∀ page, (∀ p ∈ done, ¬ SamePage page p) → leafEntry a.memory cr3 page = leafEntry m.memory cr3 page
  balance : ∀ L, (∀ p ∈ done, p ∈ L) → Balanced cr3 L m a

section Run

variable {roots : Finset ℕ} {m a b : Machine} {cr3 va : ℕ} {done : List ℕ}

/-- No page gone through. -/
theorem Framed.refl (h : Mappable roots m) : Framed roots cr3 [] m m where
  ready := h
  active := rfl
  mapped := by rintro page ⟨p, hp, -⟩; exact absurd hp List.not_mem_nil
  before := fun _ hp => absurd hp List.not_mem_nil
  others := fun _ _ => rfl
  balance := fun _ _ => .same rfl rfl

/-- Addresses of one page map the frame at zero together. -/
theorem SamePage.mapsZero_iff {page : ℕ} (h : SamePage page va) (mem : Memory) : MapsZero mem cr3 page ↔ MapsZero mem cr3 va := by
  unfold MapsZero
  rw [h.leafEntry_eq mem]

/-- A page that maps the frame at zero in between did so at the start. -/
theorem Framed.mapsZero (h : Framed roots cr3 done m a) (hzero : MapsZero a.memory cr3 va) : MapsZero m.memory cr3 va := by
  by_cases hdone : ∃ p ∈ done, SamePage va p
  · exact absurd hzero (h.mapped va hdone).2.2
  · push Not at hdone
    exact (mapsZero_congr (h.others va hdone)).mp hzero

/-- A round of the loop stays in the active address space. -/
theorem Machine.allocatePage_activePage (h : Mappable roots a) (hcr3 : align cr3 ∈ roots) (hva : pmlIndex va ≠ 510) :
    (Machine.allocatePage false false cr3 (a, none) va).1.activePage = a.activePage := by
  have hlocked : Mappable roots (a.lock .frame) := h.same rfl rfl
  obtain ⟨hgrown, hresult⟩ := hlocked.growable.getPage hcr3 hva true
  have hwalked := hlocked.grown hgrown
  have hactive := (hgrown.config hlocked.growable).1
  unfold Machine.allocatePage
  rw [if_neg (not_not.mpr rfl), Bool.not_false]
  dsimp only
  generalize (a.lock .frame).getPage va cr3 true true = r at hresult hwalked hactive
  rcases hresult with ⟨hnone, -⟩ | ⟨pt, hslot, hwalk⟩
  · rw [hnone]
    exact hactive
  · rw [hslot]
    have hgiven := hwalked.growable.frameGiven hwalked.below (leafSlot_of_walk hcr3 hwalk) false false false
    have hkept : (r.2.allocateFrame ⟨pt, tableIndex va⟩ false false false).2.activePage = r.2.activePage := by
      cases hgiven with
      | rewritten _ _ hm => rw [hm]; rfl
      | exhausted _ _ _ hm => rw [hm]; rfl
      | fresh f filled habsent hf hne hoff hentry hmem hpool hactive => exact hactive
    dsimp only
    split <;> exact hkept.trans hactive

/-- One more page is gone through. -/
theorem Framed.concat (h : Framed roots cr3 done m a) (hcr3 : align cr3 ∈ roots) (hva : pmlIndex va ≠ 510)
    (hround : Machine.allocatePage false false cr3 (a, none) va = (b, none)) : Framed roots cr3 (done ++ [va]) m b := by
  have hframes := h.ready.framedRound hcr3 hva
  have hround' := h.ready.userRound hcr3 hva
  have hactive := Machine.allocatePage_activePage h.ready hcr3 hva
  rw [hround] at hframes hround' hactive
  obtain ⟨hpresent, hwrites, hzero⟩ := hround'.done rfl
  refine ⟨hround'.ready, hactive.trans h.active, fun page hpage => ?_, fun p hp => ?_, fun page houtside => ?_, fun L hL => ?_⟩
  · by_cases hsame : SamePage page va
    · rw [hsame.leafEntry_eq, hsame.mapsZero_iff]
      exact ⟨hpresent, hwrites, hframes.nonzero rfl⟩
    · obtain ⟨p, hp, hpage⟩ := hpage
      rcases List.mem_append.mp hp with hp | hp
      · rw [hround'.others page hsame, mapsZero_congr (hround'.others page hsame)]
        exact h.mapped page ⟨p, hp, hpage⟩
      · rw [List.mem_singleton.mp hp] at hpage
        exact absurd hpage hsame
  · rcases List.mem_append.mp hp with hp | hp
    · exact h.before p hp
    · rw [List.mem_singleton.mp hp]
      intro hbefore
      by_cases hdone : ∃ q ∈ done, SamePage va q
      · obtain ⟨q, hq, hsame⟩ := hdone
        exact h.before q hq ((hsame.mapsZero_iff _).mp hbefore)
      · push Not at hdone
        exact hzero ((mapsZero_congr (h.others va hdone)).mpr hbefore)
  · rw [hround'.others page (houtside va (by simp))]
    exact h.others page fun p hp => houtside p (List.mem_append_left _ hp)
  · exact (h.balance L fun p hp => hL p (List.mem_append_left _ hp)).trans (hframes.balance L (hL va (by simp)))

/-- The loop goes through its pages, or it stops: at a page that maps the frame at zero, or short of frames. -/
theorem Framed.run (h : Framed roots cr3 done m a) (hcr3 : align cr3 ∈ roots) (todo : List ℕ)
    (hout : ∀ p ∈ todo, pmlIndex p ≠ 510) :
    (∃ b, run (Machine.allocatePage false false cr3) (a, none) todo = (b, none) ∧ Framed roots cr3 (done ++ todo) m b) ∨
      (run (Machine.allocatePage false false cr3) (a, none) todo).2 ≠ none ∧
        ((∃ p ∈ done ++ todo, MapsZero m.memory cr3 p) ∨
          (freeFrames m.framePool).length < frameNeed m.memory cr3 (done ++ todo)) := by
  induction todo generalizing done a with
  | nil =>
    rw [List.append_nil]
    exact Or.inl ⟨a, rfl, h⟩
  | cons va todo ih =>
    rw [List.forall_mem_cons] at hout
    have hframes := h.ready.framedRound hcr3 hout.1
    have hround := h.ready.userRound hcr3 hout.1
    have hrun : Lib.run (Machine.allocatePage false false cr3) (a, none) (va :: todo) =
        Lib.run (Machine.allocatePage false false cr3) (Machine.allocatePage false false cr3 (a, none) va) todo := rfl
    rw [hrun]
    have hnext {b : Machine} := h.concat (b := b) hcr3 hout.1
    generalize Machine.allocatePage false false cr3 (a, none) va = st at hframes hround hnext
    obtain ⟨b, stop⟩ := st
    have hva : va ∈ done ++ va :: todo := by simp
    cases stop with
    | none =>
      rw [List.append_cons]
      exact ih (hnext rfl) hout.2
    | some stop =>
      have hstop : (some stop : Option ℕ) ≠ none := Option.some_ne_none stop
      rw [Machine.allocatePage_stopped _ _ _ hstop todo]
      refine Or.inr ⟨hstop, ?_⟩
      cases hpresent : present (leafEntry b.memory cr3 va) with
      | true => exact Or.inl ⟨va, hva, h.mapsZero ((hround.stopped hstop).2 hpresent)⟩
      | false =>
        have hall := (h.balance (done ++ va :: todo) fun p hp => List.mem_append_left _ hp).trans
          (hframes.balance _ hva)
        have hneed : 0 < frameNeed b.memory cr3 (done ++ va :: todo) := frameNeed_pos hva hpresent
        unfold Balanced at hall
        rw [hframes.empty hstop hpresent, List.length_nil] at hall
        dsimp only at hall
        exact Or.inr (by omega)

/-- The loop goes through its pages exactly when none of them maps the frame at zero and the free frames suffice. -/
theorem Mappable.run_iff (h : Mappable roots m) (hcr3 : align cr3 ∈ roots) (pages : List ℕ)
    (hout : ∀ p ∈ pages, pmlIndex p ≠ 510) :
    (run (Machine.allocatePage false false cr3) (m, none) pages).2 = none ↔
      (∀ p ∈ pages, ¬ MapsZero m.memory cr3 p) ∧ frameNeed m.memory cr3 pages ≤ (freeFrames m.framePool).length := by
  have hstart : Framed roots cr3 [] m m := .refl h
  rcases hstart.run hcr3 pages hout with ⟨b, hrun, hall⟩ | ⟨hstop, hreason⟩
  · rw [List.nil_append] at hall
    refine iff_of_true (by rw [hrun]) ⟨hall.before, ?_⟩
    have hbalance := hall.balance pages fun p hp => hp
    unfold Balanced at hbalance
    rw [frameNeed_of_present fun p hp => (hall.mapped p ⟨p, hp, rfl⟩).1] at hbalance
    omega
  · rw [List.nil_append] at hreason
    refine iff_of_false hstop ?_
    rintro ⟨hzero, henough⟩
    rcases hreason with ⟨p, hp, hmaps⟩ | hshort
    · exact hzero p hp hmaps
    · omega

end Run

end Cthulhu
