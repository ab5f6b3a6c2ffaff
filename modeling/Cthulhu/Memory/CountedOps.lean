import Cthulhu.Memory.Paging
import Cthulhu.Memory.Release

/-!
# Page operations and use counts

Each round of the paging loops keeps use counts and references in step. What a round must not
do is stated where it is needed: clear an entry whose high bits hide the frame, overwrite an
entry that maps a pool frame, or share a frame that its entry does not name.
-/

namespace Cthulhu

open Lib

section Entries

/-- Flags below the page bits do not move the frame of an entry. -/
theorem frameOf_setBit_low (w : ℕ) {pos : ℕ} (value : Bool) (h : pos < 12) :
    frameOf (setBit w pos value) = frameOf w := by
  have halign := align_setBit w value h
  unfold align at halign
  unfold frameOf
  rw [Nat.eq_of_mul_eq_mul_left (by decide) halign]

/-- The address bits read from the low part of a word. -/
theorem frameOf_eq (w : ℕ) : frameOf w = align (w % 2 ^ 62) := by
  unfold frameOf align
  omega

/-- The execute-disable bit does not move the frame of an entry. -/
theorem frameOf_setBit_xd (w : ℕ) (value : Bool) : frameOf (setBit w 63 value) = frameOf w := by
  have hmod := setBit_mod w 63 value
  rw [frameOf_eq, frameOf_eq]
  congr 1
  omega

/-- Without high bits the frame of an entry is the aligned entry. -/
theorem frameOf_of_lt {w : ℕ} (h : w < 2 ^ 62) : frameOf w = align w := by
  rw [frameOf_eq, Nat.mod_eq_of_lt h]

/-- Aligning an entry keeps its frame. -/
theorem frameOf_align (w : ℕ) : frameOf (align w) = frameOf w := by
  unfold frameOf align
  omega

/-- The flags of `allocate_frame` keep the frame. -/
theorem frameOf_pageFlags (a : ℕ) (kernel readonly exec : Bool) :
    frameOf (Machine.pageFlags a kernel readonly exec) = frameOf a := by
  unfold Machine.pageFlags
  rw [frameOf_setBit_xd, frameOf_setBit_low _ _ (by decide), frameOf_setBit_low _ _ (by decide),
    frameOf_setBit_low _ _ (by decide)]

/-- The flags of `allocate_frame` make an entry present. -/
theorem present_pageFlags (a : ℕ) (kernel readonly exec : Bool) :
    present (Machine.pageFlags a kernel readonly exec) = true := by
  unfold present Machine.pageFlags
  rw [bit_setBit_of_ne _ _ (by decide), bit_setBit_of_ne _ _ (by decide), bit_setBit_of_ne _ _ (by decide),
    bit_setBit_self]

/-- A new page is filled at its frame, with or without the execute-disable bit. -/
theorem align_pageFlags {f : ℕ} (kernel readonly exec : Bool) (haligned : f % 0x1000 = 0) (hlt : f < 2 ^ 62) :
    align (setBit (Machine.pageFlags f kernel readonly exec) 63 false) = f := by
  unfold Machine.pageFlags
  have hflags : align (setBit (setBit (setBit f 0 true) 1 !readonly) 2 !kernel) = f := by
    rw [align_setBit _ _ (by decide), align_setBit _ _ (by decide), align_setBit _ _ (by decide),
      align_of_mod haligned]
  generalize setBit (setBit (setBit f 0 true) 1 (!readonly)) 2 (!kernel) = b at hflags ⊢
  have hbound := align_le b
  have hdiv := setBit_div b 63 exec
  have hmod := setBit_mod b 63 exec
  have hb : setBit (setBit b 63 exec) 63 false = b := by
    rw [setBit_eq, hdiv, hmod, Bool.toNat_false]
    omega
  rw [hb, hflags]

/-- The entry of `map_range` leads to the frame it was given. -/
theorem frameOf_mappedEntry (frame : ℕ) (readonly kernel : Bool) :
    frameOf (Machine.mappedEntry frame readonly kernel) = frameOf frame := by
  unfold Machine.mappedEntry
  rw [frameOf_setBit_low _ _ (by decide), frameOf_setBit_low _ _ (by decide),
    frameOf_setBit_low _ _ (by decide), frameOf_align]

/-- The entry of `map_range` is present. -/
theorem present_mappedEntry (frame : ℕ) (readonly kernel : Bool) :
    present (Machine.mappedEntry frame readonly kernel) = true := by
  unfold present Machine.mappedEntry
  rw [bit_setBit_of_ne _ _ (by decide), bit_setBit_of_ne _ _ (by decide), bit_setBit_self]

/-- An on-demand marker is not present. -/
theorem present_aodMarker (stale : ℕ) (exec : Bool) : present (aodMarker stale exec) = false := by
  unfold present aodMarker
  rw [bit_setBit_of_ne _ _ (by decide), bit_setBit_of_ne _ _ (by decide), bit_setBit_of_ne _ _ (by decide),
    bit_setBit_self]

end Entries

section Pages

variable {rule : ℕ → ℕ → Prop} {roots : Finset ℕ} {m : Machine}

/-- A slot of a leaf table. -/
def LeafSlot (roots : Finset ℕ) (m : Machine) (p : Slot) : Prop :=
  p.table ∈ paging.tables m.memory roots 3 ∧ p.index < 512

/-- The walk to an address keeps the counts right, and ends in the slot of its entry. -/
theorem Counted.getPage (h : Counted roots m) {va cr3 : ℕ} (hcr3 : align cr3 ∈ roots)
    (hva : pmlIndex va ≠ 510) (user : Bool) :
    Counted roots (m.getPage va cr3 true user).2 ∧ Grown roots m (m.getPage va cr3 true user).2 ∧
      ∀ p, (m.getPage va cr3 true user).1 = some p → LeafSlot roots (m.getPage va cr3 true user).2 p ∧
        (m.getPage va cr3 true user).2.load p = leafEntry m.memory cr3 va := by
  obtain ⟨hgrown, hresult⟩ := h.growable.getPage hcr3 hva user
  refine ⟨hgrown.counted h, hgrown, fun p hp => ?_⟩
  rcases hresult with ⟨hnone, -⟩ | ⟨pt, hslot, hwalk⟩
  · rw [hnone] at hp
    exact absurd hp (by simp)
  · rw [hslot] at hp
    obtain rfl := Option.some.inj hp
    refine ⟨⟨Links.walk_mem (show align cr3 ∈ paging.tables _ roots 0 from hcr3) (indices_mem va) hwalk,
      tableIndex_lt va⟩, ?_⟩
    rw [← hgrown.leafEntry h.growable hcr3 va, leafEntry, hwalk]
    rfl

/-- Growth keeps the leaf slots. -/
theorem Grown.leafSlot {m' : Machine} (hgrown : Grown roots m m') (h : Growable roots m) {p : Slot}
    (hp : LeafSlot roots m p) : LeafSlot roots m' p ∧ m'.load p = m.load p := by
  refine (Grown.invariant (fun a => LeafSlot roots a p ∧ a.load p = m.load p) ?_ h hgrown ⟨hp, rfl⟩).2
  intro a b ha hgrow hsame
  refine ⟨⟨ha.tables_grow hgrow (by decide) hsame.1.1, hsame.1.2⟩, ?_⟩
  unfold Machine.load at hsame ⊢
  rw [ha.leaf_grow hgrow hsame.1.1, hsame.2]

/-- What `allocate_frame` can do to a leaf slot: rewrite a present entry for the frame it holds,
fail with the pool exhausted, or give a fresh frame, filled or not, to an entry that is not present. -/
inductive FrameGiven (p : Slot) (kernel readonly exec : Bool) (m : Machine) (r : ℕ × Machine) : Prop
  | rewritten (hpresent : present (m.load p) = true)
    (hentry : r.1 = align (Machine.pageFlags (align (m.load p)) kernel readonly exec))
    (hm : r.2 = m.store p (Machine.pageFlags (align (m.load p)) kernel readonly exec))
  | exhausted (habsent : present (m.load p) = false) (hnone : freeFrames m.framePool = []) (hentry : r.1 = 0)
    (hm : r.2 = m.unlock .frame)
  | fresh (f : ℕ) (filled : Memory) (habsent : present (m.load p) = false) (hf : f = (getFreeFrame m.framePool).1)
    (hne : f ≠ 0) (hoff : ∀ n, n ≠ f → filled n = m.memory n) (hentry : r.1 ≠ 0)
    (hmem : r.2.memory = Links.store filled p.table p.index (Machine.pageFlags f kernel readonly
      (if bit (m.load p) 1 && bit (m.load p) 3 then bit (m.load p) 4 else exec)))
    (hpool : r.2.framePool = (getFreeFrame m.framePool).2) (hactive : r.2.activePage = m.activePage)

/-- The flags do not clear a frame address. -/
theorem align_pageFlags_ne_zero {f : ℕ} (kernel readonly exec : Bool) (haligned : f % 0x1000 = 0) (hlt : f < 2 ^ 62)
    (hne : f ≠ 0) : align (Machine.pageFlags f kernel readonly exec) ≠ 0 := by
  intro hzero
  have hframe := frameOf_pageFlags f kernel readonly exec
  rw [frameOf_of_lt hlt, align_of_mod haligned] at hframe
  unfold align at hzero
  unfold frameOf at hframe
  omega

/-- A stored word is read back. -/
theorem Machine.load_store (m : Machine) (p : Slot) (w : ℕ) : (m.store p w).load p = w :=
  Links.store_self m.memory p.table p.index w

/-- `allocate_frame` does one of these for a slot outside the next free frame. -/
theorem frameGiven_of_apart (hpool : PoolInv m.framePool) (hnonempty : m.framePool ≠ [])
    (hbelow : ∀ s ∈ m.framePool, s.endWord ≤ 2 ^ 62) {p : Slot}
    (htable : (getFreeFrame m.framePool).1 ≠ 0 → p.table ≠ (getFreeFrame m.framePool).1)
    (kernel readonly exec : Bool) :
    FrameGiven p kernel readonly exec m (m.allocateFrame p kernel readonly exec) := by
  unfold Machine.allocateFrame
  dsimp only
  cases hpresent : present (m.load p) with
  | true =>
    simp only [if_true, m.load_store]
    exact .rewritten hpresent rfl rfl
  | false =>
    simp only [Bool.false_eq_true, if_false, Machine.getFreeFrame_eq hnonempty]
    by_cases hzero : (getFreeFrame m.framePool).1 = 0
    · simp only [hzero, if_true]
      exact .exhausted hpresent (hpool.freeFrames_of_exhausted hzero) rfl rfl
    · simp only [hzero, if_false]
      obtain ⟨hframe, -, -, -, -, -⟩ := hpool.taken rfl hzero
      have hlt := hpool.frame_lt hbelow hframe
      have haligned := (hpool.frame_aligned hframe).1
      have htable := htable hzero
      rw [align_pageFlags _ _ _ haligned hlt]
      generalize hexec : (if bit (m.load p) 1 && bit (m.load p) 3 then bit (m.load p) 4 else exec) = exec'
      have hentry := align_pageFlags_ne_zero kernel readonly exec' haligned hlt hzero
      by_cases hmirror : m.memMirrorPresent = true
      · have hoff (n : ℕ) (hn : n ≠ (getFreeFrame m.framePool).1) : Function.update m.memory
            (getFreeFrame m.framePool).1 (fun _ => 0xCCCCCCCCCCCCCCCC) n = m.memory n := Function.update_of_ne hn _ _
        refine .fresh _ _ hpresent rfl hzero hoff ?_ ?_ ?_ ?_
        · simp only [Machine.store, Machine.fill, Machine.load, hmirror, if_true, Function.update_of_ne htable,
            Function.update_self]
          exact hentry
        · simp only [Machine.store, Machine.fill, hmirror, if_true]
          unfold Links.store
          rw [Function.update_comm htable.symm, hoff p.table htable, hexec]
        · simp only [Machine.store, Machine.fill, hmirror, if_true]
        · simp only [Machine.store, Machine.fill, hmirror, if_true]
      · refine .fresh _ _ hpresent rfl hzero (fun _ _ => rfl) ?_ ?_ ?_ ?_
        · simp only [Machine.store, Machine.load, hmirror, Bool.false_eq_true, if_false, Function.update_self]
          exact hentry
        · simp only [Machine.store, hmirror, Bool.false_eq_true, if_false, hexec]
          rfl
        · simp only [Machine.store, hmirror, Bool.false_eq_true, if_false]
        · simp only [Machine.store, hmirror, Bool.false_eq_true, if_false]

/-- `allocate_frame` does one of these for a leaf slot. -/
theorem Growable.frameGiven (h : Growable roots m) (hbelow : ∀ s ∈ m.framePool, s.endWord ≤ 2 ^ 62) {p : Slot}
    (hp : LeafSlot roots m p) (kernel readonly exec : Bool) :
    FrameGiven p kernel readonly exec m (m.allocateFrame p kernel readonly exec) := by
  refine frameGiven_of_apart h.pool h.nonempty hbelow (fun hne heq => ?_) kernel readonly exec
  exact (h.fresh rfl hne).2 ⟨3, by decide, heq ▸ hp.1⟩

/-- What `allocate_frame` can do to a link: nothing, rewrite it to lead to the same frame, or
link a fresh frame that it may have filled. -/
inductive Mapping (roots : Finset ℕ) (p : Slot) (m m' : Machine) : Prop
  | same (hpool : m'.framePool = m.framePool) (hmem : m'.memory = m.memory)
  | rewritten (w : ℕ) (hw : paging.child 3 p.index w = paging.child 3 p.index (m.load p))
    (hm : m' = m.store p w)
  | linked (w f : ℕ) (filled : Memory) (hold : paging.child 3 p.index (m.load p) = none)
    (hw : paging.child 3 p.index w = some f) (hf : f = (getFreeFrame m.framePool).1) (hne : f ≠ 0)
    (hoff : ∀ n, n ≠ f → filled n = m.memory n) (hpool : m'.framePool = (getFreeFrame m.framePool).2)
    (hmem : m'.memory = Links.store filled p.table p.index w)

/-- `allocate_frame` does one of these. -/
theorem Growable.allocateFrame_mapping (h : Growable roots m) (hbelow : ∀ s ∈ m.framePool, s.endWord ≤ 2 ^ 62)
    {p : Slot} (hp : LeafSlot roots m p) (kernel readonly exec : Bool) :
    Mapping roots p m (m.allocateFrame p kernel readonly exec).2 := by
  cases h.frameGiven hbelow hp kernel readonly exec with
  | rewritten hpresent hentry hm =>
    refine .rewritten _ ?_ hm
    rw [child_leaf, child_leaf, present_pageFlags, frameOf_pageFlags, frameOf_align, hpresent]
  | exhausted habsent hnone hentry hm => exact .same (by rw [hm]; rfl) (by rw [hm]; rfl)
  | fresh f filled habsent hf hne hoff hentry hmem hpool hactive =>
    obtain ⟨hframe, -, -, -, -, -⟩ := h.pool.taken hf hne
    refine .linked _ f filled (child_of_not_present habsent) ?_ hf hne hoff hpool hmem
    rw [child_leaf, present_pageFlags, if_pos rfl, frameOf_pageFlags, frameOf_of_lt (h.pool.frame_lt hbelow hframe),
      align_of_mod (h.pool.frame_aligned hframe).1]

/-- `allocate_frame` keeps the counts right. -/
theorem Counted.allocateFrame (h : Counted roots m) {p : Slot} (hp : LeafSlot roots m p)
    (kernel readonly exec : Bool) : Counted roots (m.allocateFrame p kernel readonly exec).2 := by
  cases h.growable.allocateFrame_mapping h.below hp kernel readonly exec with
  | same hpool hmem => exact h.same hpool hmem
  | rewritten w hw hm =>
    rw [hm]
    exact h.storeSame (by decide) hp.1 hp.2 hw
  | linked w f filled hold hw hf hne hoff hpool hmem =>
    exact h.takeLink (by decide) hp.1 hp.2 hold hw hf hne hoff (fun hdepth => absurd hdepth (by decide)) hpool hmem

/-- `allocate_frame` keeps the free frames unreferenced. -/
theorem Growable.allocateFrame (h : Growable roots m) (hbelow : ∀ s ∈ m.framePool, s.endWord ≤ 2 ^ 62)
    {p : Slot} (hp : LeafSlot roots m p) (kernel readonly exec : Bool) :
    Growable roots (m.allocateFrame p kernel readonly exec).2 := by
  cases h.allocateFrame_mapping hbelow hp kernel readonly exec with
  | same hpool hmem => exact h.grow_same hpool hmem
  | rewritten w hw hm =>
    obtain ⟨htables, hrefs⟩ := store_same h.leveled (by decide) hp.1 hw
    rw [hm]
    refine ⟨h.pool, h.nonempty, h.leveled.mono fun l hl => ?_, fun f hf => ?_⟩
    · exact (htables l (Nat.le_of_lt hl)).le
    · exact (hrefs f).trans (h.unreferenced f hf)
  | linked w f filled hold hw hf hne hoff hpool hmem =>
    obtain ⟨hlev, -, hrefs⟩ := h.link_effect (by decide) hp.1 hp.2 hold hw hf hne hoff
      fun hdepth => absurd hdepth (by decide)
    exact h.taken hf hne hpool (by rw [hmem]; exact hlev) fun g hg => by rw [hmem, hrefs, if_neg hg, Nat.add_zero]

/-- `allocate_frame` keeps one reference to each table. -/
theorem OneReference.allocateFrame (hone : OneReference roots m) (h : Growable roots m)
    (hbelow : ∀ s ∈ m.framePool, s.endWord ≤ 2 ^ 62) {p : Slot} (hp : LeafSlot roots m p)
    (kernel readonly exec : Bool) : OneReference roots (m.allocateFrame p kernel readonly exec).2 := by
  have hnext := h.allocateFrame hbelow hp kernel readonly exec
  refine ⟨hnext.pool, fun T hT => ?_, hnext.unreferenced⟩
  cases h.allocateFrame_mapping hbelow hp kernel readonly exec with
  | same hpool hmem =>
    rw [hmem] at hT ⊢
    exact hone.tables T hT
  | rewritten w hw hm =>
    obtain ⟨htables, hrefs⟩ := store_same h.leveled (by decide) hp.1 hw
    obtain ⟨k, hk, hmemk⟩ := hT
    rw [hm] at hmemk ⊢
    rw [show (m.store p w).memory = Links.store m.memory p.table p.index w from rfl, hrefs]
    exact hone.tables T ⟨k, hk, htables k (Nat.le_of_lt hk) ▸ hmemk⟩
  | linked w f filled hold hw hf hne hoff hpool hmem =>
    obtain ⟨-, htables, hrefs⟩ := h.link_effect (by decide) hp.1 hp.2 hold hw hf hne hoff
      fun hdepth => absurd hdepth (by decide)
    obtain ⟨k, hk, hmemk⟩ := hT
    rw [hmem, htables k hk, if_neg (show k ≠ 4 from Nat.ne_of_lt hk)] at hmemk
    rw [hmem, hrefs, if_neg fun heq : T = f => (h.fresh hf hne).2 (heq ▸ ⟨k, hk, hmemk⟩)]
    exact hone.tables T ⟨k, hk, hmemk⟩

/-- Walks to leaf tables survive a change below the directories. -/
theorem KeepsAbove.walk_eq {m' : Machine} {e : Slot} (hkeep : KeepsAbove roots 3 e m m')
    (hlev : paging.Leveled m.memory roots) (he : e.table ∈ paging.tables m.memory roots 3) {cr3 : ℕ}
    (hcr3 : align cr3 ∈ roots) (va : ℕ) :
    paging.walk m'.memory 0 (align cr3) (indices va) = paging.walk m.memory 0 (align cr3) (indices va) := by
  refine Links.walk_congr (show align cr3 ∈ paging.tables m.memory roots 0 from hcr3) (indices_mem va) ?_
  intro l _ hl T hT i _
  have hl3 : l < 3 := by simpa [indices] using hl
  rw [(hkeep l (by omega)).2 T hT i fun heq => ?_]
  have hsame := hlev l (Nat.lt_succ_of_lt hl3) 3 (by decide) e.table (heq.1 ▸ hT) he
  omega

/-- The entry of the page may be cleared: where it maps a pool frame, no high bit hides it. -/
def ReleaseSafe (cr3 : ℕ) (m : Machine) (va : ℕ) : Prop :=
  present (m.pageEntry va cr3) = true → 2 ^ 62 ≤ m.pageEntry va cr3 →
    Unmanaged m.framePool (frameOf (m.pageEntry va cr3))

/-- The entry of the page may be overwritten: it maps no pool frame. -/
def OverwriteSafe (cr3 : ℕ) (m : Machine) (va : ℕ) : Prop :=
  present (m.pageEntry va cr3) = true → Unmanaged m.framePool (frameOf (m.pageEntry va cr3))

/-- The frame of the page may be shared: it is outside the pool, or the entry is present, no high
bit hides the frame, and its count has room. -/
def ShareSafe (cr3 : ℕ) (m : Machine) (va : ℕ) : Prop :=
  Unmanaged m.framePool (frameOf (m.pageEntry va cr3)) ∨
    (present (m.pageEntry va cr3) = true ∧ m.pageEntry va cr3 < 2 ^ 62 ∧
      usageCount m.framePool (frameOf (m.pageEntry va cr3)) + 1 < 2 ^ 32)

/-- Releasing the frame of a leaf entry keeps the counts right. -/
theorem CountedBy.releaseLeaf [UseRule rule] (h : CountedBy rule roots m) {p : Slot} (hp : LeafSlot roots m p)
    (hpresent : present (m.load p) = true)
    (hsafe : 2 ^ 62 ≤ m.load p → Unmanaged m.framePool (frameOf (m.load p))) :
    CountedBy rule roots ((m.freeFrame (align (m.load p))).store p 0) ∧
      Cut roots 3 p (frameOf (m.load p)) m ((m.freeFrame (align (m.load p))).store p 0) := by
  have hlink : paging.child 3 p.index (m.load p) = some (frameOf (m.load p)) := by
    rw [child_leaf, hpresent, if_pos rfl]
  by_cases hlow : m.load p < 2 ^ 62
  · rw [frameOf_of_lt hlow] at hlink ⊢
    exact h.releaseLink (by decide) hp.1 hp.2 hlink fun hdepth => absurd hdepth (by decide)
  · rw [h.freeFrame_high (Nat.not_lt.mp hlow)]
    exact h.releaseUnmanaged (by decide) hp.1 hp.2 hlink (hsafe (by omega)) fun hdepth => absurd hdepth (by decide)

/-- Where a frame may keep more uses than references, every leaf entry may be cleared. -/
theorem Covered.releaseLeaf (h : Covered roots m) {p : Slot} (hp : LeafSlot roots m p)
    (hpresent : present (m.load p) = true) : Covered roots ((m.freeFrame (align (m.load p))).store p 0) ∧
      Cut roots 3 p (frameOf (m.load p)) m ((m.freeFrame (align (m.load p))).store p 0) := by
  by_cases hlow : m.load p < 2 ^ 62
  · exact CountedBy.releaseLeaf h hp hpresent fun hhigh => absurd hlow (Nat.not_lt.mpr hhigh)
  · have hlink : paging.child 3 p.index (m.load p) = some (frameOf (m.load p)) := by
      rw [child_leaf, hpresent, if_pos rfl]
    obtain ⟨hcut, hlev⟩ := h.cut_store (by decide) hp.1 hp.2 hlink fun hdepth => absurd hdepth (by decide)
    rw [h.freeFrame_high (Nat.not_lt.mp hlow)]
    refine ⟨h.next rfl h.pool h.cow hlev (fun g hg => ?_) ?_, hcut⟩
    · have hdrop := hcut.references g
      exact le_trans (by omega) (h.counted g hg)
    · exact h.named_store (by decide) hp.1 hcut.sub fun g hg => by rw [child_zero] at hg; exact absurd hg (by simp)

/-- What `deallocate_frame` does for a page: nothing where no frame is mapped, else the leaf entry
is cut and every table this leaves empty is dropped. -/
inductive Removal (rule : ℕ → ℕ → Prop) (roots : Finset ℕ) (cr3 va : ℕ) (m m' : Machine) : Prop
  | absent (habsent : present (leafEntry m.memory cr3 va) = false) (hsame : m' = m)
  | cleared (pt f : ℕ) (m₁ : Machine) (hwalk : paging.walk m.memory 0 (align cr3) (indices va) = some pt)
    (hpresent : present (m.memory pt (tableIndex va)) = true)
    (hcut : Cut roots 3 ⟨pt, tableIndex va⟩ f m m₁) (hcounted : CountedBy rule roots m₁)
    (hcascade : Cascade rule roots 3 pt m₁ m')

/-- Clearing a word that is zero changes nothing. -/
theorem Machine.store_zero {p : Slot} (hzero : m.load p = 0) : m.store p 0 = m := by
  have hword : Function.update (m.memory p.table) p.index 0 = m.memory p.table :=
    Function.update_eq_self_iff.mpr hzero.symm
  unfold Machine.store
  rw [hword, Function.update_eq_self]

/-- `deallocate_frame` keeps the counts right when the release of the frame does. -/
theorem CountedBy.deallocateFrame_of [UseRule rule] (h : CountedBy rule roots m) {va cr3 : ℕ} (hcr3 : align cr3 ∈ roots)
    (hva : pmlIndex va ≠ 510) (hrelease : ∀ p, LeafSlot roots m p → m.load p = m.pageEntry va cr3 →
      present (m.load p) = true → CountedBy rule roots ((m.freeFrame (align (m.load p))).store p 0) ∧
        Cut roots 3 p (frameOf (m.load p)) m ((m.freeFrame (align (m.load p))).store p 0)) :
    CountedBy rule roots (m.deallocateFrame (m.getPage va cr3 false false).1 va cr3) ∧
      Removal rule roots cr3 va m (m.deallocateFrame (m.getPage va cr3 false false).1 va cr3) := by
  unfold Machine.deallocateFrame
  rw [m.getPage_false cr3 false hva]
  cases hwalk : paging.walk m.memory 0 (align cr3) (indices va) with
  | none =>
    refine ⟨h, .absent ?_ rfl⟩
    rw [leafEntry_of_none hwalk]
    decide
  | some pt =>
    simp only [Option.map_some]
    have hentry : leafEntry m.memory cr3 va = m.load ⟨pt, tableIndex va⟩ := leafEntry_of_some hwalk
    have hslot : LeafSlot roots m ⟨pt, tableIndex va⟩ :=
      ⟨Links.walk_mem (show align cr3 ∈ paging.tables m.memory roots 0 from hcr3) (indices_mem va) hwalk,
        tableIndex_lt va⟩
    cases hpresent : present (m.load ⟨pt, tableIndex va⟩) with
    | false =>
      simp only [Bool.not_false, if_true]
      exact ⟨h, .absent (by rw [hentry, hpresent]) rfl⟩
    | true =>
      simp only [Bool.not_true, Bool.false_eq_true, if_false]
      obtain ⟨hreleased, hcut⟩ := hrelease _ hslot ((m.pageEntry_eq cr3 hva).trans hentry).symm hpresent
      have hwalk' := (hcut.keepsAbove (by decide)).walk_eq h.leveled hslot.1 hcr3 va
      rw [hwalk] at hwalk'
      generalize (m.freeFrame (align (m.load ⟨pt, tableIndex va⟩))).store ⟨pt, tableIndex va⟩ 0 = m₁ at *
      have hcleared : leafEntry m₁.memory cr3 va = 0 := (leafEntry_of_some hwalk').trans hcut.cleared
      obtain ⟨hcounted, hcascade⟩ := hreleased.freePageStructure hcr3 hva fun hpresent' => by
        rw [hcleared] at hpresent'
        exact absurd hpresent' (by decide)
      refine ⟨hcounted, .cleared pt _ m₁ hwalk hpresent hcut hreleased ?_⟩
      have hdown := hcascade pt hwalk'
      rwa [Machine.store_zero hcut.cleared] at hdown

/-- `deallocate_frame` keeps the counts right. -/
theorem CountedBy.deallocateFrame [UseRule rule] (h : CountedBy rule roots m) {va cr3 : ℕ} (hcr3 : align cr3 ∈ roots)
    (hva : pmlIndex va ≠ 510) (hsafe : ReleaseSafe cr3 m va) :
    CountedBy rule roots (m.deallocateFrame (m.getPage va cr3 false false).1 va cr3) ∧
      Removal rule roots cr3 va m (m.deallocateFrame (m.getPage va cr3 false false).1 va cr3) := by
  refine h.deallocateFrame_of hcr3 hva fun p hp hentry hpresent => h.releaseLeaf hp hpresent ?_
  rw [hentry] at hpresent ⊢
  exact hsafe hpresent

/-- `deallocate_frame` leaves no frame with fewer uses than references. -/
theorem Covered.deallocateFrame (h : Covered roots m) {va cr3 : ℕ} (hcr3 : align cr3 ∈ roots) (hva : pmlIndex va ≠ 510) :
    Covered roots (m.deallocateFrame (m.getPage va cr3 false false).1 va cr3) ∧
      Removal GE.ge roots cr3 va m (m.deallocateFrame (m.getPage va cr3 false false).1 va cr3) :=
  h.deallocateFrame_of hcr3 hva fun _ hp _ hpresent => Covered.releaseLeaf h hp hpresent

end Pages

end Cthulhu
