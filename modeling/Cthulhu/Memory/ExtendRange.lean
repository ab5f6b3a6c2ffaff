import Cthulhu.Memory.Extend

/-!
# Allocating a range

The rounds of `allocate`, and its loop. A round maps its page, stops at a page that holds the frame
at zero, or stops with the pool exhausted; in the last case it may leave a new table behind that
holds nothing. The frames taken on the way are those the pages needed.
-/

namespace Cthulhu

open Lib

section Walk

variable {roots : Finset ℕ} {cr3 : ℕ} {pages : List ℕ} {m a b : Machine} {va : ℕ}

/-- Where an allocating walk stands, in a machine `b` it started in as `a`: nothing was changed, or
the table it stands at is a new one. -/
inductive Way (roots : Finset ℕ) (cr3 : ℕ) (pages : List ℕ) (m a : Machine) (T : ℕ) (b : Machine) : Prop
  | untouched (hpool : b.framePool = a.framePool) (hmem : b.memory = a.memory)
  | grown (hfree : freeFrames a.framePool ≠ []) (hnew : Extended roots cr3 pages (some T) m b)

/-- On its way a walk keeps the comparison; no other table than its own is pending. -/
theorem Way.extended {T : ℕ} (hway : Way roots cr3 pages m a T b) (h : Extended roots cr3 pages none m a) :
    ∃ pending, Extended roots cr3 pages pending m b ∧ ∀ T', pending = some T' → T' = T := by
  cases hway with
  | untouched hpool hmem => exact ⟨none, h.same hpool hmem, fun _ hpending => absurd hpending (by simp)⟩
  | grown hfree hnew => exact ⟨some T, hnew, fun T' hpending => (Option.some.inj hpending).symm⟩

/-- The state of the machine is all that matters on the way. -/
theorem Way.same {T : ℕ} {b' : Machine} (hway : Way roots cr3 pages m a T b) (hpool : b'.framePool = b.framePool)
    (hmem : b'.memory = b.memory) : Way roots cr3 pages m a T b' := by
  cases hway with
  | untouched hpool' hmem' => exact .untouched (hpool.trans hpool') (hmem.trans hmem')
  | grown hfree hnew => exact .grown hfree (hnew.same hpool hmem)

/-- A machine that took a frame had a free one. -/
theorem Growable.freeFrames_ne_nil (h : Growable roots a) {f : ℕ} (hf : f = (getFreeFrame a.framePool).1) (hne : f ≠ 0) :
    freeFrames a.framePool ≠ [] := by
  obtain ⟨-, -, -, -, hfree, -⟩ := h.pool.taken hf hne
  rw [hfree]
  exact List.cons_ne_nil _ _

/-- An allocating walk stops with the pool exhausted or ends in the leaf table of its page. -/
theorem Extended.getPage (h : Extended roots cr3 pages none m a) (hcr3 : align cr3 ∈ roots) (hva : pmlIndex va ≠ 510)
    (user : Bool) :
    ((a.getPage va cr3 true user).1 = none ∧ freeFrames (a.getPage va cr3 true user).2.framePool = [] ∧
        (∃ T, Way roots cr3 pages m a T (a.getPage va cr3 true user).2) ∧
        ∀ L, va ∈ L → Balanced cr3 L a (a.getPage va cr3 true user).2) ∨
      ∃ pt, (a.getPage va cr3 true user).1 = some ⟨pt, tableIndex va⟩ ∧
        paging.walk (a.getPage va cr3 true user).2.memory 0 (align cr3) (indices va) = some pt ∧
        Way roots cr3 pages m a pt (a.getPage va cr3 true user).2 ∧
        ∀ L, va ∈ L → Balanced cr3 L a (a.getPage va cr3 true user).2 := by
  have hrule := h.tree.counted.growable.getPage_rule hcr3 hva user
    (fun _ T b => Way roots cr3 pages m a T b ∧ ∀ L, va ∈ L → Balanced cr3 L a b)
    (fun b => freeFrames b.framePool = [] ∧ (∃ T, Way roots cr3 pages m a T b) ∧ ∀ L, va ∈ L → Balanced cr3 L a b)
    ⟨.untouched rfl rfl, fun _ _ => .same rfl rfl⟩ fun l hl T b r hb hwalk hgood hdescent => ?_
  · rcases hrule with ⟨hnone, hempty, hway, hbalance⟩ | ⟨pt, hslot, ⟨hway, hbalance⟩, -, hwalk⟩
    · exact Or.inl ⟨hnone, hempty, hway, hbalance⟩
    · exact Or.inr ⟨pt, hslot, hwalk, hway, hbalance⟩
  · obtain ⟨hway, hbalance⟩ := hgood
    obtain ⟨hT, hi⟩ := indices_slot hcr3 hl hwalk
    obtain ⟨hnext, -⟩ := indices_take va hl
    have hlen := length_indices_take va (Nat.le_of_lt hl)
    have hgrow := (hdescent.grow hl hT hi).1
    cases hdescent with
    | passed C hchild =>
      refine ⟨fun hnone => absurd hnone (by simp), fun C' hC' => ?_⟩
      cases hway with
      | untouched hpool hmem => exact ⟨.untouched hpool hmem, hbalance⟩
      | grown hfree hnew =>
        -- the new table is empty, so that no level below it can be passed
        have hzero := (hnew.empty T rfl).2 _ hi
        unfold Machine.load at hchild
        rw [hzero, child_zero] at hchild
        exact absurd hchild (by simp)
    | exhausted hold hzero =>
      refine ⟨fun _ => ⟨hb.pool.freeFrames_of_exhausted hzero, ⟨T, hway.same rfl rfl⟩, fun L hL => ?_⟩,
        fun C' hC' => absurd hC' (by simp)⟩
      exact (hbalance L hL).trans (.same rfl rfl)
    | linked w f b' hold hw hf hne hpool hmem =>
      refine ⟨fun hnone => absurd hnone (by simp), fun C' hC' => ?_⟩
      obtain rfl := Option.some.inj hC'
      obtain ⟨pending, hext, hpending⟩ := hway.extended h
      have hfree : freeFrames a.framePool ≠ [] := by
        cases hway with
        | untouched hpool' =>
          rw [← hpool']
          exact hb.freeFrames_ne_nil hf hne
        | grown hfree => exact hfree
      refine ⟨.grown hfree (hext.link hcr3 hl hT hi hold hw hf hne hpool hmem hgrow hpending), fun L hL => ?_⟩
      have hpath : ∀ i ∈ (indices va).take l, i ∈ paging.slots := fun i hi => indices_mem va i (List.mem_of_mem_take hi)
      refine (hbalance L hL).trans (hext.tree.one.balanced_link hb hcr3 hpath hlen (Nat.lt_succ_of_lt hl) hwalk hold hw
        hf hne (cleared_off b.memory f) (fun _ j _ => by rw [Function.update_self]) ⟨va, hL, ?_⟩ hpool hmem)
      rw [← hnext]
      match l, hl with
      | 0, _ => simp [places]
      | 1, _ => simp [places]
      | 2, _ => simp [places]

/-- The flags of `allocate_frame` without execute-disable keep an address low. -/
theorem pageFlags_lt {x : ℕ} (kernel readonly : Bool) (h : x < 2 ^ 62) :
    Machine.pageFlags x kernel readonly false < 2 ^ 62 := by
  unfold Machine.pageFlags
  have hflags : align (setBit (setBit (setBit x 0 true) 1 !readonly) 2 !kernel) = align x := by
    rw [align_setBit _ _ (by decide), align_setBit _ _ (by decide), align_setBit _ _ (by decide)]
  generalize setBit (setBit (setBit x 0 true) 1 (!readonly)) 2 (!kernel) = y at hflags ⊢
  have hdiv := setBit_div y 63 false
  have hmod := setBit_mod y 63 false
  have hbit := bit_setBit_self y 63 false
  unfold bit at hbit
  unfold align at hflags
  rw [decide_eq_false_iff_not] at hbit
  omega

/-- A page has the entry it had, or is one of those gone through and present. -/
theorem Extended.gone_through {pending : Option ℕ} (h : Extended roots cr3 pages pending m a) (hcr3 : align cr3 ∈ roots)
    (va : ℕ) : leafEntry a.memory cr3 va = leafEntry m.memory cr3 va ∨
      (present (leafEntry a.memory cr3 va) = true ∧
        (leafEntry m.memory cr3 va = 0 → leafEntry a.memory cr3 va < 2 ^ 62)) := by
  by_cases hpage : ∃ p ∈ pages, SamePage va p
  · obtain ⟨p, hp, hsame⟩ := hpage
    rw [hsame.leafEntry_eq a.memory, hsame.leafEntry_eq m.memory]
    exact Or.inr (h.mapped p hp)
  · push Not at hpage
    exact Or.inl (h.outside cr3 hcr3 va fun _ => hpage)

/-- What one round of `allocate` can do: map its page, stop at a page that is present, or stop with
the pool exhausted somewhere on the way to the page. -/
inductive Round (roots : Finset ℕ) (cr3 : ℕ) (pages : List ℕ) (m a : Machine) (va : ℕ) : Machine × Option ℕ → Prop
  | mapped (b : Machine) (hnew : Extended roots cr3 (pages ++ [va]) none m b)
    (hbalance : ∀ L, va ∈ L → Balanced cr3 L a b) : Round roots cr3 pages m a va (b, none)
  | refused (b : Machine) (hpresent : present (leafEntry b.memory cr3 va) = true) :
    Round roots cr3 pages m a va (b, some va)
  | exhausted (b : Machine) (T : ℕ) (habsent : present (leafEntry b.memory cr3 va) = false)
    (hfree : freeFrames b.framePool = []) (hway : Way roots cr3 pages m a T b)
    (hbalance : ∀ L, va ∈ L → Balanced cr3 L a b) : Round roots cr3 pages m a va (b, some va)

/-- `allocate_frame` at the page a walk ended in. -/
theorem Extended.allocateFrame {pending : Option ℕ} (h : Extended roots cr3 pages pending m a) (hcr3 : align cr3 ∈ roots)
    {pt : ℕ} (hwalk : paging.walk a.memory 0 (align cr3) (indices va) = some pt)
    (hpending : ∀ T, pending = some T → T = pt) (kernel readonly : Bool) :
    ((a.allocateFrame ⟨pt, tableIndex va⟩ kernel readonly false).1 ≠ 0 →
        Extended roots cr3 (pages ++ [va]) none m (a.allocateFrame ⟨pt, tableIndex va⟩ kernel readonly false).2 ∧
        ∀ L, va ∈ L → Balanced cr3 L a (a.allocateFrame ⟨pt, tableIndex va⟩ kernel readonly false).2) ∧
      ((a.allocateFrame ⟨pt, tableIndex va⟩ kernel readonly false).1 = 0 →
        present (leafEntry (a.allocateFrame ⟨pt, tableIndex va⟩ kernel readonly false).2.memory cr3 va) = true ∨
        present (leafEntry a.memory cr3 va) = false ∧ freeFrames a.framePool = [] ∧
          (a.allocateFrame ⟨pt, tableIndex va⟩ kernel readonly false).2 = a.unlock .frame) := by
  have hslot := leafSlot_of_walk hcr3 hwalk
  have hgrowable := h.tree.counted.growable
  have hcounted := h.tree.counted.allocateFrame hslot kernel readonly false
  have hone := h.tree.one.allocateFrame hgrowable h.tree.counted.below hslot kernel readonly false
  have hgiven := hgrowable.frameGiven h.tree.counted.below hslot kernel readonly false
  have hload : a.load ⟨pt, tableIndex va⟩ = leafEntry a.memory cr3 va := (leafEntry_of_some hwalk).symm
  generalize a.allocateFrame ⟨pt, tableIndex va⟩ kernel readonly false = r at *
  cases hgiven with
  | rewritten hpresent hentry hm =>
    rw [hload] at hpresent hm
    have hmem : r.2.memory = Links.store a.memory pt (tableIndex va)
        (Machine.pageFlags (align (leafEntry a.memory cr3 va)) kernel readonly false) := by rw [hm]; rfl
    refine ⟨fun _ => ⟨h.map hcr3 hwalk (fun _ _ _ _ => rfl) hmem (by rw [hm]; rfl) hcounted hone (present_pageFlags _ _ _ _)
      (fun hzero => pageFlags_lt kernel readonly ?_) hpending, fun L hL => ?_⟩, fun _ => Or.inl ?_⟩
    · have hlow := (h.gone_through hcr3 va).resolve_left fun hsame => ?_
      · have hbound := align_le (leafEntry a.memory cr3 va)
        have hlt := hlow.2 hzero
        omega
      · rw [hsame, hzero] at hpresent
        exact absurd hpresent (by decide)
    · rw [hm]
      refine hgrowable.balanced_rewrite hcr3 hslot ?_
      rw [child_leaf, child_leaf, present_pageFlags, frameOf_pageFlags, frameOf_align, hload, hpresent]
    · rw [hmem, hgrowable.leafEntry_store hslot (fun _ _ _ _ => rfl) _ hcr3, if_pos ⟨hwalk, rfl⟩]
      exact present_pageFlags _ _ _ _
  | exhausted habsent hnone hentry hm =>
    rw [hload] at habsent
    exact ⟨fun hne => absurd hentry hne, fun _ => Or.inr ⟨habsent, hnone, hm⟩⟩
  | fresh f filled habsent hf hne hoff hentry hmem hpool hactive =>
    refine ⟨fun _ => ?_, fun hzero => absurd hzero hentry⟩
    rw [hload] at habsent hmem
    obtain ⟨hframe, -, -, hlayout, -, -⟩ := h.tree.counted.pool.taken hf hne
    have hlt := h.tree.counted.frame_lt hframe
    have hnot := (hgrowable.fresh hf hne).2
    refine ⟨h.map hcr3 hwalk (fun l hl T hT => hoff T fun heq => hnot ⟨l, hl, heq ▸ hT⟩) hmem (by rw [hpool, hlayout])
      hcounted hone (present_pageFlags _ _ _ _) (fun hzero => ?_) hpending, fun L hL => ?_⟩
    · have hsame := (h.gone_through hcr3 va).resolve_right fun hboth => by
        rw [habsent] at hboth
        exact absurd hboth.1 (by decide)
      rw [hsame, hzero]
      exact pageFlags_lt kernel readonly hlt
    · refine h.tree.one.balanced_link hgrowable hcr3 (indices_mem va) (show _ = 3 from rfl) (by decide) hwalk
        (child_of_not_present ?_) ?_ hf hne hoff (fun hdepth => absurd hdepth (by decide)) ⟨va, hL, by simp [places]⟩
        hpool hmem
      · rw [← leafEntry_of_some hwalk, habsent]
      · rw [child_leaf, present_pageFlags, if_pos rfl, frameOf_pageFlags, frameOf_of_lt hlt,
          align_of_mod (h.tree.counted.pool.frame_aligned hframe).1]

/-- One round of `allocate` does one of these. -/
theorem Extended.allocatePage (h : Extended roots cr3 pages none m a) (hcr3 : align cr3 ∈ roots)
    (hva : pmlIndex va ≠ 510) (kernel readonly : Bool) :
    Round roots cr3 pages m a va (Machine.allocatePage kernel readonly cr3 (a, none) va) := by
  have hlocked : Extended roots cr3 pages none m (a.lock .frame) := h.same rfl rfl
  have hentries := fun b (hgrown : Grown roots (a.lock .frame) b) => hgrown.leafEntry hlocked.tree.counted.growable hcr3 va
  have hgrown := (hlocked.tree.counted.getPage hcr3 hva !kernel).2.1
  have hresult := hlocked.getPage hcr3 hva !kernel
  unfold Machine.allocatePage
  simp only [ne_eq, not_true_eq_false, if_false]
  generalize (a.lock .frame).getPage va cr3 true (!kernel) = r at hgrown hresult
  have hentry : leafEntry r.2.memory cr3 va = leafEntry a.memory cr3 va := hentries r.2 hgrown
  have hback {T : ℕ} {b : Machine} (hway : Way roots cr3 pages m (a.lock .frame) T b) : Way roots cr3 pages m a T b := by
    cases hway with
    | untouched hpool hmem => exact .untouched hpool hmem
    | grown hfree hnew => exact .grown hfree hnew
  rcases hresult with ⟨hnone, hempty, ⟨T, hway⟩, hbalance⟩ | ⟨pt, hslot, hwalk, hway, hbalance⟩
  · rw [hnone]
    dsimp only
    cases hpresent : present (leafEntry a.memory cr3 va) with
    | true => exact .refused r.2 (by rw [hentry, hpresent])
    | false => exact .exhausted r.2 T (by rw [hentry, hpresent]) hempty (hback hway) hbalance
  · rw [hslot]
    dsimp only
    obtain ⟨pending, hext, hpending⟩ := hway.extended hlocked
    obtain ⟨hdone, hfailed⟩ := hext.allocateFrame hcr3 hwalk hpending kernel readonly
    split
    next hzero =>
      rcases hfailed hzero with hpresent | ⟨habsent, hnone, hm⟩
      · exact .refused _ hpresent
      · refine .exhausted _ pt ?_ ?_ (hback (hway.same ?_ ?_)) fun L hL => (hbalance L hL).trans (.same ?_ ?_)
        · rw [hm]
          exact habsent
        · rw [hm]
          exact hnone
        all_goals rw [hm]; rfl
    next hne =>
      obtain ⟨hnew, hlast⟩ := hdone hne
      refine .mapped _ (hnew.same rfl rfl) fun L hL => ?_
      exact (hbalance L hL).trans ((hlast L hL).trans (.same rfl rfl))

/-- A loop that stopped stays as it is. -/
theorem Machine.allocatePage_stopped (kernel readonly : Bool) (st : Machine × Option ℕ) (hst : st.2 ≠ none)
    (rest : List ℕ) : run (Machine.allocatePage kernel readonly cr3) st rest = st := by
  induction rest with
  | nil => rfl
  | cons va rest ih =>
    have hround : Machine.allocatePage kernel readonly cr3 st va = st := if_pos hst
    change run (Machine.allocatePage kernel readonly cr3) (Machine.allocatePage kernel readonly cr3 st va) rest = st
    rw [hround, ih]

/-- The loop of `allocate` maps its pages one after the other until a round stops it. -/
theorem Extended.run (h : Extended roots cr3 pages none m a) (hcr3 : align cr3 ∈ roots) (kernel readonly : Bool)
    (todo : List ℕ) (hout : ∀ p ∈ todo, pmlIndex p ≠ 510)
    (hbalance : ∀ L, (∀ p ∈ pages, p ∈ L) → Balanced cr3 L m a) :
    (∃ b, run (Machine.allocatePage kernel readonly cr3) (a, none) todo = (b, none) ∧
        Extended roots cr3 (pages ++ todo) none m b ∧ ∀ L, (∀ p ∈ pages ++ todo, p ∈ L) → Balanced cr3 L m b) ∨
      ∃ done va rest c b, todo = done ++ va :: rest ∧
        run (Machine.allocatePage kernel readonly cr3) (a, none) todo = (b, some va) ∧
        Extended roots cr3 (pages ++ done) none m c ∧ (∀ L, (∀ p ∈ pages ++ done, p ∈ L) → Balanced cr3 L m c) ∧
        Round roots cr3 (pages ++ done) m c va (b, some va) := by
  induction todo generalizing pages a with
  | nil =>
    refine Or.inl ⟨a, rfl, ?_⟩
    rw [List.append_nil]
    exact ⟨h, hbalance⟩
  | cons va todo ih =>
    rw [List.forall_mem_cons] at hout
    have hround := h.allocatePage hcr3 hout.1 kernel readonly
    have hrun : Lib.run (Machine.allocatePage kernel readonly cr3) (a, none) (va :: todo) =
        Lib.run (Machine.allocatePage kernel readonly cr3) (Machine.allocatePage kernel readonly cr3 (a, none) va) todo := rfl
    rw [hrun]
    generalize hst : Machine.allocatePage kernel readonly cr3 (a, none) va = st at hround
    have hstop {b : Machine} (hround : Round roots cr3 pages m a va (b, some va)) :
        ∃ done va' rest c b', va :: todo = done ++ va' :: rest ∧
          Lib.run (Machine.allocatePage kernel readonly cr3) (b, some va) todo = (b', some va') ∧
          Extended roots cr3 (pages ++ done) none m c ∧ (∀ L, (∀ p ∈ pages ++ done, p ∈ L) → Balanced cr3 L m c) ∧
          Round roots cr3 (pages ++ done) m c va' (b', some va') := by
      refine ⟨[], va, todo, a, b, rfl, Machine.allocatePage_stopped _ _ _ (by simp) todo, ?_⟩
      rw [List.append_nil]
      exact ⟨h, hbalance, hround⟩
    cases hround with
    | mapped b hnew hlast =>
      have hnext : ∀ L, (∀ p ∈ pages ++ [va], p ∈ L) → Balanced cr3 L m b := fun L hL =>
        (hbalance L fun p hp => hL p (List.mem_append_left _ hp)).trans (hlast L (hL va (by simp)))
      rcases ih hnew hout.2 hnext with ⟨b', hb', hext, hall⟩ | ⟨done, va', rest, c, b', htodo, hb', hext, hall, hround'⟩
      · rw [List.append_assoc] at hext hall
        exact Or.inl ⟨b', hb', hext, hall⟩
      · rw [List.append_assoc] at hext hall hround'
        exact Or.inr ⟨va :: done, va', rest, c, b', by rw [htodo]; rfl, hb', hext, hall, hround'⟩
    | refused b hpresent => exact Or.inr (hstop (.refused b hpresent))
    | exhausted b T habsent hfree hway hlast => exact Or.inr (hstop (.exhausted b T habsent hfree hway hlast))

end Walk

end Cthulhu
