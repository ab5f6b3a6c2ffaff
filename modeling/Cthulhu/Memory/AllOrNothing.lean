import Cthulhu.Memory.Inverse

/-!
# A failing allocation

`allocate` that runs out of frames gives back the pages before the one it failed at, whatever they
held before the call, and it does not look at the tables it obtained for the failing page. The
state is restored exactly when the frames ran out between two pages, the pages before held no
entry, and no table on the way to them was empty.
-/

namespace Cthulhu

open Lib

/-- Words are as they were or zero. -/
def Fades (m m' : Machine) : Prop := ∀ T i, m'.memory T i = m.memory T i ∨ m'.memory T i = 0

section Fades

variable {m m' m'' : Machine}

/-- A memory that stays does not come back. -/
theorem Fades.of_memory (h : m'.memory = m.memory) : Fades m m' := fun T i => Or.inl (by rw [h])

/-- What faded stays faded. -/
theorem Fades.trans (h : Fades m m') (h' : Fades m' m'') : Fades m m'' := by
  intro T i
  rcases h' T i with heq | heq
  · rw [heq]
    exact h T i
  · exact Or.inr heq

/-- A word that is zero stays zero. -/
theorem Fades.zero (h : Fades m m') {T i : ℕ} (hzero : m.memory T i = 0) : m'.memory T i = 0 := by
  rcases h T i with heq | heq
  · rw [heq, hzero]
  · exact heq

/-- Clearing an entry. -/
theorem Fades.store (m : Machine) (p : Slot) : Fades m (m.store p 0) := by
  intro T i
  by_cases hhere : T = p.table ∧ i = p.index
  · rw [hhere.1, hhere.2]
    exact Or.inr (Links.store_self m.memory _ _ _)
  · exact Or.inl (Links.store_of_ne m.memory 0 hhere)

/-- Giving back a frame. -/
theorem Fades.freeFrame (m : Machine) (f : ℕ) : Fades m (m.freeFrame f) := by
  intro T i
  rw [m.freeFrame_memory]
  split
  next frame _ =>
    by_cases hhere : T = frame
    · rw [hhere, Function.update_self]
      exact Or.inr rfl
    · rw [Function.update_of_ne hhere]
      exact Or.inl rfl
  next => exact Or.inl rfl

/-- `free_page_structure` clears entries and gives back frames. -/
theorem Fades.freePageStructure (m : Machine) (va cr3 : ℕ) : Fades m (m.freePageStructure va cr3) := by
  have hdrop (a : Machine) (f : ℕ) (p : Slot) : Fades a ((a.freeFrame f).store p 0) :=
    (Fades.freeFrame a f).trans (Fades.store _ p)
  have hrefl (a : Machine) : Fades a a := Fades.of_memory rfl
  unfold Machine.freePageStructure
  dsimp only
  split
  · exact hrefl m
  split
  · exact hrefl m
  split
  · exact hrefl m
  split
  · exact Fades.store m _
  split
  · exact (Fades.store m _).trans (hdrop _ _ _)
  split
  · exact ((Fades.store m _).trans (hdrop _ _ _)).trans (hdrop _ _ _)
  · exact (((Fades.store m _).trans (hdrop _ _ _)).trans (hdrop _ _ _)).trans (hdrop _ _ _)

/-- Walks fade with the words. -/
theorem Fades.walk (h : Fades m m') {root va pt : ℕ}
    (hwalk : paging.walk m'.memory 0 (align root) (indices va) = some pt) :
    paging.walk m.memory 0 (align root) (indices va) = some pt := by
  refine Links.walk_mono (show align root ∈ paging.tables m'.memory {align root} 0 from Finset.mem_singleton_self _)
    (indices_mem va) (fun l _ T _ i _ C hchild => ?_) hwalk
  rcases h T i with heq | heq
  · rwa [heq] at hchild
  · rw [heq, child_zero] at hchild
    exact absurd hchild (by simp)

/-- The entry seen at an address fades with the words. -/
theorem Fades.leafEntry (h : Fades m m') (root va : ℕ) :
    leafEntry m'.memory root va = Cthulhu.leafEntry m.memory root va ∨ Cthulhu.leafEntry m'.memory root va = 0 := by
  cases hwalk' : paging.walk m'.memory 0 (align root) (indices va) with
  | none => exact Or.inr (leafEntry_of_none hwalk')
  | some pt =>
    rw [leafEntry_of_some hwalk', leafEntry_of_some (h.walk hwalk')]
    exact h _ _

/-- One round of `deallocate` only clears, and leaves its page absent. -/
theorem Fades.deallocatePage (m : Machine) (cr3 : ℕ) {va : ℕ} (hva : pmlIndex va ≠ 510) :
    Fades m (Machine.deallocatePage cr3 m va) ∧
      present (Cthulhu.leafEntry (Machine.deallocatePage cr3 m va).memory cr3 va) = false := by
  unfold Machine.deallocatePage Machine.deallocateFrame
  dsimp only
  rw [Machine.getPage_false _ cr3 false hva]
  cases hwalk : paging.walk (m.lock .frame).memory 0 (align cr3) (indices va) with
  | none =>
    refine ⟨Fades.of_memory rfl, ?_⟩
    exact (congrArg present (leafEntry_of_none hwalk)).trans (by decide)
  | some pt =>
    simp only [Option.map_some]
    split
    next habsent =>
      refine ⟨Fades.of_memory rfl, ?_⟩
      rw [Bool.not_eq_true'] at habsent
      exact (congrArg present (leafEntry_of_some hwalk)).trans habsent
    next =>
      generalize hnext : ((m.lock .frame).freeFrame (align ((m.lock .frame).load ⟨pt, tableIndex va⟩))).store
        ⟨pt, tableIndex va⟩ 0 = a
      have ha : Fades m a := by
        rw [← hnext]
        exact (Fades.freeFrame (m.lock .frame) _).trans (Fades.store _ _)
      have hzero : a.memory pt (tableIndex va) = 0 := by
        rw [← hnext]
        exact Links.store_self _ _ _ _
      have hrest := Fades.freePageStructure a va cr3
      refine ⟨ha.trans hrest, ?_⟩
      change present (Cthulhu.leafEntry (a.freePageStructure va cr3).memory cr3 va) = false
      cases hwalk' : paging.walk (a.freePageStructure va cr3).memory 0 (align cr3) (indices va) with
      | none =>
        rw [leafEntry_of_none hwalk']
        decide
      | some pt' =>
        obtain rfl : pt = pt' := Option.some.inj (hwalk.symm.trans ((ha.trans hrest).walk hwalk'))
        rw [leafEntry_of_some hwalk', hrest.zero hzero]
        decide

/-- The rounds of `deallocate` only clear, and leave their pages absent. -/
theorem Fades.run (m : Machine) (cr3 : ℕ) (vas : List ℕ) (hout : ∀ va ∈ vas, pmlIndex va ≠ 510) :
    Fades m (run (Machine.deallocatePage cr3) m vas) ∧
      ∀ va ∈ vas, present (Cthulhu.leafEntry (run (Machine.deallocatePage cr3) m vas).memory cr3 va) = false := by
  induction vas generalizing m with
  | nil => exact ⟨Fades.of_memory rfl, fun va hva => absurd hva (by simp)⟩
  | cons a vas ih =>
    rw [List.forall_mem_cons] at hout
    obtain ⟨hround, habsent⟩ := Fades.deallocatePage m cr3 hout.1
    obtain ⟨hrest, hall⟩ := ih (Machine.deallocatePage cr3 m a) hout.2
    refine ⟨hround.trans hrest, fun va hva => ?_⟩
    rcases List.mem_cons.mp hva with rfl | hva
    · rcases hrest.leafEntry cr3 va with heq | heq
      · exact (congrArg present heq).trans habsent
      · exact (congrArg present heq).trans (by decide)
    · exact hall va hva

end Fades

/-- The loop of `allocate` stops at a page that is not present: the pool ran out. -/
def Machine.RunsOut (m : Machine) (start amount : ℕ) (kernel readonly : Bool) (cr3 : ℕ) : Prop :=
  ∃ va, (run (Machine.allocatePage kernel readonly cr3) (m, none) (Machine.allocatePages start amount)).2 = some va ∧
    present ((run (Machine.allocatePage kernel readonly cr3) (m, none)
      (Machine.allocatePages start amount)).1.pageEntry va cr3) = false

section Failure

variable {roots : Finset ℕ} {cr3 start amount : ℕ} {kernel readonly : Bool} {m a b m' : Machine} {pages : List ℕ}

/-- Where the loop stopped: the pages before are mapped and took what they needed, and the frames
that were left did not suffice for the page it stopped at. -/
structure Stopped (roots : Finset ℕ) (cr3 start amount : ℕ) (m b : Machine) (done : List ℕ) (va : ℕ) (rest : List ℕ) :
    Prop where
  pages : Machine.allocatePages start amount = done ++ va :: rest
  enough : frameNeed m.memory cr3 done ≤ (freeFrames m.framePool).length
  short : (freeFrames m.framePool).length < frameNeed m.memory cr3 (done ++ [va])
  left : (frameNeed m.memory cr3 done = (freeFrames m.framePool).length ∧ Extended roots cr3 done none m b) ∨
    (frameNeed m.memory cr3 done ≠ (freeFrames m.framePool).length ∧ ∃ T, Extended roots cr3 done (some T) m b)

/-- `allocate` that runs out stops somewhere, and gives back the pages before. -/
theorem Machine.RunsOut.stopped (hfail : m.RunsOut start amount kernel readonly cr3) (htree : PageTree roots m)
    (hcr3 : align cr3 ∈ roots) (hout : ∀ p ∈ Machine.allocatePages start amount, pmlIndex p ≠ 510) :
    ∃ b done va rest, Stopped roots cr3 start amount m b done va rest ∧
      m.allocate start amount kernel readonly cr3 = (false, b.deallocate (align start) (va - align start) cr3) := by
  have hstart : Extended roots cr3 [] none m m := Extended.refl htree
  obtain ⟨stop, hstop, habsent⟩ := hfail
  unfold Machine.allocate
  dsimp only
  rcases hstart.run hcr3 kernel readonly _ hout fun _ _ => .same rfl rfl with
    ⟨b, hrun, -⟩ | ⟨done, va, rest, c, b, hpages, hrun, hext, hbalance, hround⟩
  · rw [hrun] at hstop
    exact absurd hstop (by simp)
  · rw [hrun] at hstop habsent ⊢
    obtain rfl : va = stop := Option.some.inj hstop
    have hva : pmlIndex va ≠ 510 := hout va (by rw [hpages]; simp)
    rw [Machine.pageEntry_eq _ cr3 hva] at habsent
    rw [List.nil_append] at hext hbalance hround
    cases hround with
    | refused _ hpresent => exact absurd (hpresent.symm.trans habsent) (by decide)
    | exhausted _ T _ hfree hway hlast =>
      have hdone := hbalance done fun _ hp => hp
      have hall := (hbalance (done ++ [va]) fun _ hp => List.mem_append_left _ hp).trans
        (hlast (done ++ [va]) (by simp))
      have hneed : 0 < frameNeed b.memory cr3 (done ++ [va]) := frameNeed_pos (by simp) habsent
      unfold Balanced at hdone hall
      rw [frameNeed_of_present fun p hp => (hext.mapped p hp).1] at hdone
      rw [hfree, List.length_nil] at hall
      refine ⟨b.unlock .frame, done, va, rest, ⟨hpages, by omega, by omega, ?_⟩, rfl⟩
      cases hway with
      | untouched hpool hmem =>
        rw [← hpool, hfree, List.length_nil] at hdone
        exact Or.inl ⟨by omega, (hext.same hpool hmem).same rfl rfl⟩
      | grown hleft hnew =>
        have hpositive := List.length_pos_iff.mpr hleft
        exact Or.inr ⟨by omega, T, hnew.same rfl rfl⟩

/-- There is one page at which the frames run out. -/
theorem Stopped.unique {done done' rest rest' : List ℕ} {va va' : ℕ}
    (h : Stopped roots cr3 start amount m b done va rest)
    (hpages : Machine.allocatePages start amount = done' ++ va' :: rest')
    (henough : frameNeed m.memory cr3 done' ≤ (freeFrames m.framePool).length)
    (hshort : (freeFrames m.framePool).length < frameNeed m.memory cr3 (done' ++ [va'])) : done' = done := by
  have horder {xs ys : List ℕ} {x y : ℕ} {us vs : List ℕ} (hsplit : xs ++ x :: us = ys ++ y :: vs)
      (hlt : xs.length < ys.length) : ∀ p ∈ xs ++ [x], p ∈ ys := by
    rcases List.append_eq_append_iff.mp hsplit with ⟨zs, hys, hxs⟩ | ⟨zs, hxs, -⟩
    · cases zs with
      | nil =>
        rw [List.append_nil] at hys
        rw [hys] at hlt
        omega
      | cons z zs =>
        rw [List.cons_append, List.cons.injEq] at hxs
        intro p hp
        rw [hys, ← hxs.1, List.mem_append]
        rcases List.mem_append.mp hp with hp | hp
        · exact Or.inl hp
        · rw [List.mem_singleton.mp hp]
          exact Or.inr List.mem_cons_self
    · rw [hxs, List.length_append] at hlt
      omega
  have hsplit := hpages.symm.trans h.pages
  rcases Nat.lt_trichotomy done'.length done.length with hlt | heq | hgt
  · have hle := frameNeed_mono m.memory cr3 (horder hsplit hlt)
    exact absurd (hshort.trans_le (hle.trans h.enough)) (Nat.lt_irrefl _)
  · exact (List.append_inj hsplit heq).1
  · have hle := frameNeed_mono m.memory cr3 (horder hsplit.symm hgt)
    exact absurd (h.short.trans_le (hle.trans henough)) (Nat.lt_irrefl _)

/-- Restored tables translate every address as before. -/
theorem Restored.leafEntry_eq (h : Restored roots m m') {root : ℕ} (hroot : align root ∈ roots) (va : ℕ) :
    leafEntry m'.memory root va = leafEntry m.memory root va := by
  have hwalk : paging.walk m'.memory 0 (align root) (indices va) = paging.walk m.memory 0 (align root) (indices va) := by
    refine Links.walk_congr (show align root ∈ paging.tables m.memory roots 0 from hroot) (indices_mem va)
      fun l _ hl T hT i hi => ?_
    have hl3 : l < 3 := by simpa [indices] using hl
    rw [h.words l (by omega) T hT i (Finset.mem_range.mp hi)]
  unfold leafEntry
  rw [hwalk]
  cases hpt : paging.walk m.memory 0 (align root) (indices va) with
  | none => rfl
  | some pt =>
    have hT := Links.walk_mem (show align root ∈ paging.tables m.memory roots 0 from hroot) (indices_mem va) hpt
    exact h.words 3 (by decide) pt hT _ (tableIndex_lt va)

end Failure

end Cthulhu
