import Cthulhu.Memory.LeafEntries

/-!
# Tables whatever they map

Walks read the tables and never look at what the leaf entries map, so that they may map anything: the
tables themselves, or frames that are free. A machine is compared with its shadow, which has the
same tables with leaf entries that map nothing. Walks do the same in both, and what is known of
the shadow is known of the machine.
-/

namespace Cthulhu

open Lib

/-- The machine `b` is `m` with every leaf entry doubled, so that none is present. -/
structure Shadow (roots : Finset ℕ) (b m : Machine) : Prop where
  pool : b.framePool = m.framePool
  upper : ∀ T ∉ paging.tables b.memory roots 3, b.memory T = m.memory T
  leaf : ∀ T ∈ paging.tables b.memory roots 3, ∀ i, b.memory T i = 2 * m.memory T i

/-- The tables form trees and no free frame is one of them, whatever the leaf entries map. -/
def TableTree (roots : Finset ℕ) (m : Machine) : Prop :=
  ∃ b, Shadow roots b m ∧ OneReference roots b ∧ b.framePool ≠ []

section Shadow

variable {roots : Finset ℕ} {b m : Machine} {cr3 : ℕ}

/-- A table above the leaves has the words of the machine. -/
theorem Shadow.table (h : Shadow roots b m) (hb : Growable roots b) {l T : ℕ} (hl : l < 3)
    (hT : T ∈ paging.tables b.memory roots l) : b.memory T = m.memory T := by
  refine h.upper T fun hleaf => ?_
  have hlevel := hb.leveled l (Nat.lt_succ_of_lt hl) 3 (by decide) T hT hleaf
  omega

/-- Both machines are walked in the same way. -/
theorem Shadow.walk (h : Shadow roots b m) (hb : Growable roots b) (hcr3 : align cr3 ∈ roots) (va : ℕ) :
    paging.walk m.memory 0 (align cr3) (indices va) = paging.walk b.memory 0 (align cr3) (indices va) := by
  refine Links.walk_congr (show align cr3 ∈ paging.tables b.memory roots 0 from hcr3) (indices_mem va)
    fun k _ hk T hT i _ => ?_
  rw [h.table hb (by simpa [indices] using hk) hT]

/-- The entries of the shadow are the doubled ones. -/
theorem Shadow.leafEntry (h : Shadow roots b m) (hb : Growable roots b) (hcr3 : align cr3 ∈ roots) (va : ℕ) :
    leafEntry b.memory cr3 va = 2 * leafEntry m.memory cr3 va := by
  have hwalk := h.walk hb hcr3 va
  unfold Cthulhu.leafEntry
  rw [hwalk]
  cases hpt : paging.walk b.memory 0 (align cr3) (indices va) with
  | none => rfl
  | some pt => exact h.leaf pt (leafSlot_of_walk hcr3 hpt).1 _

/-- Linking the same cleared frame in both keeps the shadow. -/
theorem Shadow.link (h : Shadow roots b m) (hb : Growable roots b) {l : ℕ} {entry : Slot} (hl : l < 3)
    (hT : entry.table ∈ paging.tables b.memory roots l) (hi : entry.index < 512)
    (hold : paging.child l entry.index (b.load entry) = none) {w f : ℕ} (hw : paging.child l entry.index w = some f)
    (hf : f = (getFreeFrame b.framePool).1) (hne : f ≠ 0) {b' m' : Machine} (hpool : b'.framePool = m'.framePool)
    (hb' : b'.memory = Links.store (Function.update b.memory f fun _ => 0) entry.table entry.index w)
    (hm' : m'.memory = Links.store (Function.update m.memory f fun _ => 0) entry.table entry.index w) :
    Shadow roots b' m' := by
  obtain ⟨-, htables, -⟩ := hb.table_effect hl hT hi hold hw hf hne
  have hnot := (hb.fresh hf hne).2
  have htable : entry.table ≠ f := fun heq => hnot ⟨l, Nat.lt_succ_of_lt hl, heq ▸ hT⟩
  have hsame := h.table hb hl hT
  have hleaves : paging.tables b'.memory roots 3 =
      if 3 = l + 1 then insert f (paging.tables b.memory roots 3) else paging.tables b.memory roots 3 := by
    rw [hb']
    exact htables 3 (by decide)
  have hword (M : Memory) {T : ℕ} (hT' : T ≠ entry.table) : Links.store (Function.update M f fun _ => 0) entry.table
      entry.index w T = if T = f then fun _ => 0 else M T := by
    funext i
    rw [Links.store_of_ne _ w fun heq => hT' heq.1]
    split
    next heq => rw [heq, Function.update_self]
    next hother => rw [Function.update_of_ne hother]
  refine ⟨hpool, fun T hupper => ?_, fun T hleaf i => ?_⟩
  · rw [hb', hm']
    by_cases hhere : T = entry.table
    · unfold Links.store
      rw [hhere, Function.update_self, Function.update_self, Function.update_of_ne htable,
        Function.update_of_ne htable, hsame]
    · rw [hword _ hhere, hword _ hhere, h.upper T fun hin => hupper ?_]
      rw [hleaves]
      split
      · exact Finset.mem_insert_of_mem hin
      · exact hin
  · have hcase : T = f ∨ T ∈ paging.tables b.memory roots 3 := by
      rw [hleaves] at hleaf
      split at hleaf
      · exact Finset.mem_insert.mp hleaf
      · exact Or.inr hleaf
    have hother : T ≠ entry.table := by
      rintro rfl
      rcases hcase with heq | hin
      · exact htable heq
      · have hlevel := hb.leveled l (Nat.lt_succ_of_lt hl) 3 (by decide) _ hT hin
        omega
    rw [hb', hm', hword _ hother, hword _ hother]
    split
    next => rfl
    next hne' => exact h.leaf T (hcase.resolve_left hne') i

/-- One level of a walk does the same in both. -/
theorem Shadow.descend (h : Shadow roots b m) (hb : Growable roots b) {l : ℕ} {entry : Slot} (hl : l < 3)
    (hT : entry.table ∈ paging.tables b.memory roots l) (hi : entry.index < 512)
    (hmirror : ¬ (l = 0 ∧ entry.index = 510)) (user : Bool) :
    (m.descend entry true user).1 = (b.descend entry true user).1 ∧
      Shadow roots (b.descend entry true user).2 (m.descend entry true user).2 := by
  have hload : m.load entry = b.load entry := by
    unfold Machine.load
    rw [h.table hb hl hT]
  have hne : m.framePool ≠ [] := by
    rw [← h.pool]
    exact hb.nonempty
  unfold Machine.descend
  rw [hload]
  cases hpresent : present (b.load entry) with
  | true =>
    simp only [if_true]
    exact ⟨trivial, h⟩
  | false =>
    simp only [Bool.false_eq_true, if_false, if_true, Machine.getFreeFrame_eq hb.nonempty,
      Machine.getFreeFrame_eq hne, ← h.pool]
    by_cases hzero : (getFreeFrame b.framePool).1 = 0
    · simp only [hzero, if_true]
      exact ⟨trivial, h.pool, h.upper, h.leaf⟩
    · simp only [hzero, if_false]
      obtain ⟨hframe, -, -, -, -, -⟩ := hb.pool.taken rfl hzero
      have hnot := (hb.fresh rfl hzero).2
      have htable : entry.table ≠ (getFreeFrame b.framePool).1 :=
        fun heq => hnot ⟨l, Nat.lt_succ_of_lt hl, heq ▸ hT⟩
      have haligned := align_tableEntry user (hb.pool.frame_aligned hframe).1
      have hw := child_upper hl hmirror (present_tableEntry (getFreeFrame b.framePool).1 user)
      rw [haligned] at hw
      rw [haligned]
      have hmem (a : Machine) : (({ a with framePool := (getFreeFrame b.framePool).2 }.store entry
          (tableEntry (getFreeFrame b.framePool).1 user)).fill (getFreeFrame b.framePool).1 0).memory =
          Links.store (Function.update a.memory (getFreeFrame b.framePool).1 fun _ => 0) entry.table entry.index
            (tableEntry (getFreeFrame b.framePool).1 user) := by
        unfold Links.store
        rw [Function.update_comm htable.symm, cleared_off a.memory _ entry.table htable]
        rfl
      refine ⟨?_, h.link hb hl hT hi (child_of_not_present hpresent) hw rfl hzero rfl (hmem b) (hmem m)⟩
      unfold Machine.load
      rw [hmem b, hmem m, Links.store_self, Links.store_self]

/-- A walk that creates tables does the same in both. -/
theorem Shadow.getPage (h : Shadow roots b m) (hb : Growable roots b) (hcr3 : align cr3 ∈ roots) {va : ℕ}
    (hva : pmlIndex va ≠ 510) (user : Bool) :
    (m.getPage va cr3 true user).1 = (b.getPage va cr3 true user).1 ∧
      Shadow roots (b.getPage va cr3 true user).2 (m.getPage va cr3 true user).2 := by
  have hone (l i : ℕ) (hl : l < 3) (hindex : (indices va).getD l 0 = i) {T : ℕ} {a c : Machine} (hac : Shadow roots a c)
      (ha : Growable roots a) (hwalk : paging.walk a.memory 0 (align cr3) ((indices va).take l) = some T) :
      ((c.descend ⟨T, i⟩ true user).1 = (a.descend ⟨T, i⟩ true user).1 ∧
        Shadow roots (a.descend ⟨T, i⟩ true user).2 (c.descend ⟨T, i⟩ true user).2) ∧
      Growable roots (a.descend ⟨T, i⟩ true user).2 ∧
      ∀ C, (a.descend ⟨T, i⟩ true user).1 = some C →
        paging.walk (a.descend ⟨T, i⟩ true user).2.memory 0 (align cr3) ((indices va).take (l + 1)) = some C := by
    subst hindex
    obtain ⟨hT, hi⟩ := indices_slot hcr3 hl hwalk
    have hmirror : ¬ (l = 0 ∧ (indices va).getD l 0 = 510) := by
      rintro ⟨rfl, hindex⟩
      exact hva hindex
    exact ⟨hac.descend ha hl hT hi hmirror user, (ha.level hcr3 hva hl hwalk user).2⟩
  unfold Machine.getPage
  dsimp only
  obtain ⟨⟨hsame₀, hshadow₀⟩, hgrow₀, hwalk₀⟩ := hone 0 (pmlIndex va) (by decide) rfl h hb rfl
  generalize b.descend ⟨align cr3, pmlIndex va⟩ true user = r₀ at hsame₀ hshadow₀ hgrow₀ hwalk₀
  generalize m.descend ⟨align cr3, pmlIndex va⟩ true user = q₀ at hsame₀ hshadow₀
  obtain ⟨res₀, b₀⟩ := r₀
  obtain ⟨found₀, m₀⟩ := q₀
  obtain rfl : found₀ = res₀ := hsame₀
  cases found₀ with
  | none => exact ⟨rfl, hshadow₀⟩
  | some pdpt =>
  dsimp only at hshadow₀ hgrow₀ hwalk₀ ⊢
  obtain ⟨⟨hsame₁, hshadow₁⟩, hgrow₁, hwalk₁⟩ :=
    hone 1 (directoryPtrIndex va) (by decide) rfl hshadow₀ hgrow₀ (hwalk₀ pdpt rfl)
  generalize b₀.descend ⟨pdpt, directoryPtrIndex va⟩ true user = r₁ at hsame₁ hshadow₁ hgrow₁ hwalk₁
  generalize m₀.descend ⟨pdpt, directoryPtrIndex va⟩ true user = q₁ at hsame₁ hshadow₁
  obtain ⟨res₁, b₁⟩ := r₁
  obtain ⟨found₁, m₁⟩ := q₁
  obtain rfl : found₁ = res₁ := hsame₁
  cases found₁ with
  | none => exact ⟨rfl, hshadow₁⟩
  | some pdir =>
  dsimp only at hshadow₁ hgrow₁ hwalk₁ ⊢
  obtain ⟨⟨hsame₂, hshadow₂⟩, -, -⟩ :=
    hone 2 (directoryIndex va) (by decide) rfl hshadow₁ hgrow₁ (hwalk₁ pdir rfl)
  generalize b₁.descend ⟨pdir, directoryIndex va⟩ true user = r₂ at hsame₂ hshadow₂
  generalize m₁.descend ⟨pdir, directoryIndex va⟩ true user = q₂ at hsame₂ hshadow₂
  obtain ⟨res₂, b₂⟩ := r₂
  obtain ⟨found₂, m₂⟩ := q₂
  obtain rfl : found₂ = res₂ := hsame₂
  cases found₂ with
  | none => exact ⟨rfl, hshadow₂⟩
  | some pt => exact ⟨rfl, hshadow₂⟩

/-- Writing a leaf entry, doubled in the shadow. -/
theorem Shadow.store (h : Shadow roots b m) (hb : Growable roots b) {p : Slot} (hp : LeafSlot roots b p) (w : ℕ) :
    Shadow roots (b.store p (2 * w)) (m.store p w) := by
  have htables : paging.tables (b.store p (2 * w)).memory roots 3 = paging.tables b.memory roots 3 :=
    (hb.tables_leafStore hp (fun _ _ _ _ => rfl) (2 * w)).1 3 (by decide)
  refine ⟨h.pool, fun T hT => ?_, fun T hT i => ?_⟩
  · rw [htables] at hT
    have hne : T ≠ p.table := fun heq => hT (heq ▸ hp.1)
    unfold Machine.store
    dsimp only
    rw [Function.update_of_ne hne, Function.update_of_ne hne, h.upper T hT]
  · rw [htables] at hT
    change Links.store b.memory p.table p.index (2 * w) T i = 2 * Links.store m.memory p.table p.index w T i
    by_cases hhere : T = p.table ∧ i = p.index
    · obtain ⟨rfl, rfl⟩ := hhere
      rw [Links.store_self, Links.store_self]
    · rw [Links.store_of_ne _ _ hhere, Links.store_of_ne _ _ hhere, h.leaf T hT i]

/-- An even word is no present entry. -/
theorem present_double (w : ℕ) : present (2 * w) = false := by
  unfold present bit
  rw [decide_eq_false_iff_not]
  omega

end Shadow

section TableTree

variable {roots : Finset ℕ} {m : Machine} {cr3 : ℕ}

/-- A walk that creates tables keeps the trees and every entry, and finds the slot of its page or fails. -/
theorem TableTree.getPage (h : TableTree roots m) (hcr3 : align cr3 ∈ roots) {va : ℕ} (hva : pmlIndex va ≠ 510)
    (user : Bool) :
    TableTree roots (m.getPage va cr3 true user).2 ∧
      (∀ root page, align root ∈ roots →
        leafEntry (m.getPage va cr3 true user).2.memory root page = leafEntry m.memory root page) ∧
      ((m.getPage va cr3 true user).1 = none ∨ ∃ pt, (m.getPage va cr3 true user).1 = some ⟨pt, tableIndex va⟩ ∧
        paging.walk (m.getPage va cr3 true user).2.memory 0 (align cr3) (indices va) = some pt) := by
  obtain ⟨b, hshadow, hone, hne⟩ := h
  have hb := hone.growable hne
  obtain ⟨hgrown, hresult⟩ := hb.getPage hcr3 hva user
  obtain ⟨hsame, hshadow'⟩ := hshadow.getPage hb hcr3 hva user
  have hb' := hgrown.growable hb
  refine ⟨⟨_, hshadow', hgrown.oneReference hone hne, hb'.nonempty⟩, fun root page hroot => ?_, ?_⟩
  · have hbefore := hshadow.leafEntry hb hroot page
    have hafter := hshadow'.leafEntry hb' hroot page
    have hkept := Grown.leafEntry hgrown hb hroot page
    omega
  · rw [hsame, hshadow'.walk hb' hcr3 va]
    rcases hresult with ⟨hnone, -⟩ | hsome
    · exact Or.inl hnone
    · exact Or.inr hsome

/-- Writing the entry of a page keeps the trees and changes the entry of that page only. -/
theorem TableTree.store (h : TableTree roots m) (hcr3 : align cr3 ∈ roots) {va pt : ℕ}
    (hwalk : paging.walk m.memory 0 (align cr3) (indices va) = some pt) (w : ℕ) :
    TableTree roots (m.store ⟨pt, tableIndex va⟩ w) ∧
      ∀ page, (SamePage page va → leafEntry (m.store ⟨pt, tableIndex va⟩ w).memory cr3 page = w) ∧
        (¬ SamePage page va →
          leafEntry (m.store ⟨pt, tableIndex va⟩ w).memory cr3 page = leafEntry m.memory cr3 page) := by
  obtain ⟨b, hshadow, hone, hne⟩ := h
  have hb := hone.growable hne
  rw [hshadow.walk hb hcr3 va] at hwalk
  have hleaf := leafSlot_of_walk hcr3 hwalk
  have hshadow' := hshadow.store hb hleaf w
  have hone' := hone.storeLeaf hb hleaf (present_double w)
  have hb' := hone'.growable hne
  refine ⟨⟨_, hshadow', hone', hne⟩, fun page => ?_⟩
  have hentry : leafEntry (b.store ⟨pt, tableIndex va⟩ (2 * w)).memory cr3 page = _ :=
    hb.leafEntry_store hleaf (fun _ _ _ _ => rfl) (2 * w) hcr3 page
  have hslot := hone.slot_iff hcr3 hcr3 hwalk page
  have hbefore := hshadow.leafEntry hb hcr3 page
  have hafter := hshadow'.leafEntry hb' hcr3 page
  rw [hentry] at hafter
  constructor
  · intro hpage
    rw [if_pos (hslot.mpr ⟨rfl, hpage⟩)] at hafter
    omega
  · intro hother
    rw [if_neg fun hin => hother (hslot.mp hin).2] at hafter
    omega

/-- Writing the entry of a page changes no walk. -/
theorem TableTree.walk_store (h : TableTree roots m) (hcr3 : align cr3 ∈ roots) {va pt : ℕ}
    (hwalk : paging.walk m.memory 0 (align cr3) (indices va) = some pt) (w page : ℕ) :
    paging.walk (m.store ⟨pt, tableIndex va⟩ w).memory 0 (align cr3) (indices page) =
      paging.walk m.memory 0 (align cr3) (indices page) := by
  obtain ⟨b, hshadow, hone, hne⟩ := h
  have hb := hone.growable hne
  rw [hshadow.walk hb hcr3 va] at hwalk
  have hleaf := leafSlot_of_walk hcr3 hwalk
  have hb' := (hone.storeLeaf hb hleaf (present_double w)).growable hne
  rw [(hshadow.store hb hleaf w).walk hb' hcr3 page, hshadow.walk hb hcr3 page]
  exact hb.walk_leafStore hleaf (fun _ _ _ _ => rfl) (2 * w) hcr3 page

/-- A walk that creates tables gives no frame back, and takes one where a table is missing and it finds the slot. -/
theorem TableTree.getPage_takes (h : TableTree roots m) (hcr3 : align cr3 ∈ roots) {va : ℕ} (hva : pmlIndex va ≠ 510)
    (user : Bool) :
    (m.getPage va cr3 true user).2.framePool.length = m.framePool.length ∧
      (freeFrames (m.getPage va cr3 true user).2.framePool).length ≤ (freeFrames m.framePool).length ∧
      ((m.getPage va cr3 true user).1 ≠ none →
        (freeFrames m.framePool).length ≤ (freeFrames (m.getPage va cr3 true user).2.framePool).length →
          ∃ pt, paging.walk m.memory 0 (align cr3) (indices va) = some pt) := by
  obtain ⟨b, hshadow, hone, hne⟩ := h
  have hb := hone.growable hne
  obtain ⟨hgrown, hresult⟩ := hb.getPage hcr3 hva user
  obtain ⟨hsame, hshadow'⟩ := hshadow.getPage hb hcr3 hva user
  have hlayout := congrArg List.length (Grown.layout hgrown hb)
  rw [List.length_map, List.length_map] at hlayout
  -- while no frame is taken the memory stays as it is
  have htaken : (freeFrames (b.getPage va cr3 true user).2.framePool).length ≤ (freeFrames b.framePool).length ∧
      ((freeFrames b.framePool).length ≤ (freeFrames (b.getPage va cr3 true user).2.framePool).length →
        (b.getPage va cr3 true user).2.memory = b.memory) := by
    refine (Grown.invariant (fun a => (freeFrames a.framePool).length ≤ (freeFrames b.framePool).length ∧
      ((freeFrames b.framePool).length ≤ (freeFrames a.framePool).length → a.memory = b.memory)) ?_ hb hgrown
        ⟨Nat.le_refl _, fun _ => rfl⟩).2
    intro x y hx hgrow hbefore
    cases hgrow with
    | same hpool hmem =>
      rw [hpool, hmem]
      exact hbefore
    | table l p w f hl hT hi hold hw hf hne hpool =>
      obtain ⟨-, -, -, -, hfree, -⟩ := hx.pool.taken hf hne
      have hlength := congrArg List.length hfree
      rw [List.length_cons] at hlength
      rw [hpool]
      exact ⟨by omega, fun hle => absurd hle (by omega)⟩
  rw [← hshadow'.pool, ← hshadow.pool, hsame]
  refine ⟨hlayout, htaken.1, fun hfound hle => ?_⟩
  rcases hresult with ⟨hnone, -⟩ | ⟨pt, -, hwalk⟩
  · exact absurd hnone hfound
  · rw [htaken.2 hle] at hwalk
    exact ⟨pt, (hshadow.walk hb hcr3 va).trans hwalk⟩

/-- What no walk reads may change. -/
theorem TableTree.same (h : TableTree roots m) {m' : Machine} (hpool : m'.framePool = m.framePool)
    (hmem : m'.memory = m.memory) : TableTree roots m' := by
  obtain ⟨b, hshadow, hone, hne⟩ := h
  exact ⟨b, ⟨hshadow.pool.trans hpool.symm, by rw [hmem]; exact hshadow.upper, by rw [hmem]; exact hshadow.leaf⟩,
    hone, hne⟩

end TableTree

/-- The machine without entries is its own shadow. -/
theorem blankMachine_tableTree : TableTree {0x100000} blankMachine :=
  ⟨blankMachine, ⟨rfl, fun _ _ => rfl, fun _ _ _ => rfl⟩, blankMachine_oneReference, List.cons_ne_nil _ _⟩

end Cthulhu
