import Mathlib.Logic.Relation
import Cthulhu.Memory.PoolOps
import Cthulhu.Memory.References

/-!
# Growing page tables

What `__get_page` can do to a machine: nothing, or link a cleared table from a fresh frame,
once for each missing level. Every invariant of the tables is kept by one such growth and
hence by the whole walk. Growth never changes the entry seen at any address.
-/

namespace Cthulhu

open Lib

/-- The table indices of an address above its leaf entry. -/
def indices (va : ℕ) : List ℕ := [pmlIndex va, directoryPtrIndex va, directoryIndex va]

/-- The entry an address is translated by; zero where a table is missing. -/
def leafEntry (mem : Memory) (cr3 va : ℕ) : ℕ :=
  match paging.walk mem 0 (align cr3) (indices va) with
  | none => 0
  | some pt => mem pt (tableIndex va)

/-- Where a table is missing no entry is seen. -/
theorem leafEntry_of_none {mem : Memory} {cr3 va : ℕ} (h : paging.walk mem 0 (align cr3) (indices va) = none) :
    leafEntry mem cr3 va = 0 := by
  unfold leafEntry
  rw [h]

/-- The entry seen is in the leaf table the walk ends in. -/
theorem leafEntry_of_some {mem : Memory} {cr3 va pt : ℕ}
    (h : paging.walk mem 0 (align cr3) (indices va) = some pt) : leafEntry mem cr3 va = mem pt (tableIndex va) := by
  unfold leafEntry
  rw [h]

/-- Every index of an address is below 512. -/
theorem indices_mem (va : ℕ) : ∀ i ∈ indices va, i ∈ paging.slots := by
  simp only [indices, List.mem_cons, List.not_mem_nil, or_false, forall_eq_or_imp, forall_eq, paging,
    Finset.mem_range, pmlIndex, directoryPtrIndex, directoryIndex]
  omega

/-- The table index of an address is below 512. -/
theorem tableIndex_lt (va : ℕ) : tableIndex va < 512 := Nat.mod_lt _ (by decide)

/-- A table entry leads to its frame. -/
theorem align_tableEntry {f : ℕ} (user : Bool) (h : f % 0x1000 = 0) : align (tableEntry f user) = f := by
  unfold tableEntry
  rw [align_setBit _ _ (by decide), align_setBit _ _ (by decide), align_setBit _ _ (by decide), align_of_mod h]

/-- A table entry is present. -/
theorem present_tableEntry (f : ℕ) (user : Bool) : present (tableEntry f user) = true := by
  unfold present tableEntry
  rw [bit_setBit_of_ne _ _ (by decide), bit_setBit_of_ne _ _ (by decide), bit_setBit_self]

/-- With a pool, `get_free_frame` takes a frame from it or reports exhaustion. -/
theorem Machine.getFreeFrame_eq {m : Machine} (h : m.framePool ≠ []) :
    m.getFreeFrame = if (Cthulhu.getFreeFrame m.framePool).1 = 0 then (0, m.unlock .frame)
      else ((Cthulhu.getFreeFrame m.framePool).1, { m with framePool := (Cthulhu.getFreeFrame m.framePool).2 }) := by
  unfold Machine.getFreeFrame
  split
  next hnil => exact absurd hnil h
  next => rfl

/-- A machine whose free frames are referenced by no table. -/
structure Growable (roots : Finset ℕ) (m : Machine) : Prop where
  pool : PoolInv m.framePool
  nonempty : m.framePool ≠ []
  leveled : paging.Leveled m.memory roots
  unreferenced : ∀ f ∈ freeFrames m.framePool, references m.memory roots f = 0

/-- What one level of a walk can do: change no table, or link a cleared frame as a new one. -/
inductive Grow (roots : Finset ℕ) (m m' : Machine) : Prop
  | same (hpool : m'.framePool = m.framePool) (hmem : m'.memory = m.memory)
    (hactive : m'.activePage = m.activePage) (hmirror : m'.memMirrorPresent = m.memMirrorPresent)
  | table (l : ℕ) (p : Slot) (w f : ℕ) (hl : l < 3) (hT : p.table ∈ paging.tables m.memory roots l)
    (hi : p.index < 512) (hold : paging.child l p.index (m.load p) = none)
    (hw : paging.child l p.index w = some f)
    (hf : f = (getFreeFrame m.framePool).1) (hne : f ≠ 0)
    (hpool : m'.framePool = (getFreeFrame m.framePool).2)
    (hmem : m'.memory = Links.store (Function.update m.memory f fun _ => 0) p.table p.index w)
    (hactive : m'.activePage = m.activePage) (hmirror : m'.memMirrorPresent = m.memMirrorPresent)

section Step

variable {roots : Finset ℕ} {m m' : Machine}

/-- A frame about to be taken has no references, so it is no table. -/
theorem Growable.fresh (h : Growable roots m) {f : ℕ} (hf : f = (getFreeFrame m.framePool).1) (hne : f ≠ 0) :
    references m.memory roots f = 0 ∧ ¬ paging.IsTable m.memory roots f := by
  obtain ⟨-, -, -, -, hfree, -⟩ := h.pool.taken hf hne
  have hzero : references m.memory roots f = 0 := h.unreferenced f (by rw [hfree]; exact List.mem_cons_self)
  exact ⟨hzero, not_isTable_of_references hzero⟩

/-- Linking a fresh frame: the tables, their levels and the references afterwards.

The frame may have been filled before; where it becomes a table it has been cleared. -/
theorem Growable.link_effect (h : Growable roots m) {l : ℕ} {p : Slot} {w f : ℕ} {filled : Memory} (hl : l < 4)
    (hT : p.table ∈ paging.tables m.memory roots l) (hi : p.index < 512)
    (hold : paging.child l p.index (m.load p) = none) (hw : paging.child l p.index w = some f)
    (hf : f = (getFreeFrame m.framePool).1) (hne : f ≠ 0) (hoff : ∀ n, n ≠ f → filled n = m.memory n)
    (hclear : l + 1 < 4 → ∀ j < 512, filled f j = 0) :
    paging.Leveled (Links.store filled p.table p.index w) roots ∧
      (∀ l' < 4, paging.tables (Links.store filled p.table p.index w) roots l' =
        if l' = l + 1 then insert f (paging.tables m.memory roots l') else paging.tables m.memory roots l') ∧
      ∀ n, references (Links.store filled p.table p.index w) roots n =
        references m.memory roots n + if n = f then 1 else 0 := by
  obtain ⟨hzero, hnot⟩ := h.fresh hf hne
  have htable : p.table ≠ f := fun heq => hnot ⟨l, hl, heq ▸ hT⟩
  have hT' : p.table ∈ paging.tables filled roots l := by
    rwa [tables_off hnot hoff (by omega)]
  have hold' : paging.child l p.index (filled p.table p.index) = none := by
    rw [hoff p.table htable]
    exact hold
  obtain ⟨hlev, htables, hrefs⟩ := store_link (leveled_off h.leveled hnot hoff) hl hT' hi hold' hw
    fun hdepth => ⟨by rw [references_off hnot hoff, hzero], hclear hdepth⟩
  refine ⟨hlev, fun l' hl' => ?_, fun n => ?_⟩
  · rw [htables l' hl', tables_off hnot hoff (by omega)]
  · rw [hrefs, references_off hnot hoff]

/-- A cleared frame differs from the memory before only in its own words. -/
theorem cleared_off (mem : Memory) (f : ℕ) (n : ℕ) (hn : n ≠ f) :
    Function.update mem f (fun _ => 0) n = mem n := Function.update_of_ne hn _ _

/-- Linking a fresh cleared table, as growth does. -/
theorem Growable.table_effect (h : Growable roots m) {l : ℕ} {p : Slot} {w f : ℕ} (hl : l < 3)
    (hT : p.table ∈ paging.tables m.memory roots l) (hi : p.index < 512)
    (hold : paging.child l p.index (m.load p) = none) (hw : paging.child l p.index w = some f)
    (hf : f = (getFreeFrame m.framePool).1) (hne : f ≠ 0) :
    paging.Leveled (Links.store (Function.update m.memory f fun _ => 0) p.table p.index w) roots ∧
      (∀ l' < 4, paging.tables (Links.store (Function.update m.memory f fun _ => 0) p.table p.index w) roots l' =
        if l' = l + 1 then insert f (paging.tables m.memory roots l') else paging.tables m.memory roots l') ∧
      ∀ n, references (Links.store (Function.update m.memory f fun _ => 0) p.table p.index w) roots n =
        references m.memory roots n + if n = f then 1 else 0 :=
  h.link_effect (Nat.lt_succ_of_lt hl) hT hi hold hw hf hne (cleared_off m.memory f)
    fun _ j _ => by rw [Function.update_self]

/-- The same memory and pool are as growable. -/
theorem Growable.grow_same (h : Growable roots m) (hpool : m'.framePool = m.framePool) (hmem : m'.memory = m.memory) :
    Growable roots m' :=
  ⟨by rw [hpool]; exact h.pool, by rw [hpool]; exact h.nonempty, by rw [hmem]; exact h.leveled,
    by rw [hpool, hmem]; exact h.unreferenced⟩

/-- Taking a frame and referring to it keeps the free frames unreferenced. -/
theorem Growable.taken (h : Growable roots m) {f : ℕ} (hf : f = (getFreeFrame m.framePool).1) (hne : f ≠ 0)
    (hpool : m'.framePool = (getFreeFrame m.framePool).2) (hlev : paging.Leveled m'.memory roots)
    (hrefs : ∀ g, g ≠ f → references m'.memory roots g = references m.memory roots g) : Growable roots m' := by
  obtain ⟨-, -, hinv, -, hfree, -⟩ := h.pool.taken hf hne
  refine ⟨by rw [hpool]; exact hinv, by rw [hpool]; exact getFreeFrame_ne_nil h.nonempty, hlev, fun g hg => ?_⟩
  rw [hpool] at hg
  have hnodup := h.pool.freeFrames_nodup
  rw [hfree, List.nodup_cons] at hnodup
  rw [hrefs g fun heq => hnodup.1 (heq ▸ hg), h.unreferenced g]
  rw [hfree]
  exact List.mem_cons_of_mem _ hg

/-- Growth keeps the free frames unreferenced. -/
theorem Growable.grow (h : Growable roots m) (hgrow : Grow roots m m') : Growable roots m' := by
  cases hgrow with
  | same hpool hmem => exact h.grow_same hpool hmem
  | table l p w f hl hT hi hold hw hf hne hpool hmem =>
    obtain ⟨hlev, -, hrefs⟩ := h.table_effect hl hT hi hold hw hf hne
    exact h.taken hf hne hpool (by rw [hmem]; exact hlev) fun g hg => by rw [hmem, hrefs, if_neg hg, Nat.add_zero]

/-- Growth keeps every table. -/
theorem Growable.tables_grow (h : Growable roots m) (hgrow : Grow roots m m') {l : ℕ} (hl : l < 4) :
    paging.tables m.memory roots l ⊆ paging.tables m'.memory roots l := by
  cases hgrow with
  | same hpool hmem => rw [hmem]
  | table l' p w f hl' hT hi hold hw hf hne hpool hmem =>
    obtain ⟨-, htables, -⟩ := h.table_effect hl' hT hi hold hw hf hne
    rw [hmem, htables l hl]
    split
    · exact Finset.subset_insert _ _
    · exact Finset.Subset.refl _

/-- A walk before growth stays, and a new one ends in a cleared table. -/
theorem Growable.walk_grow (h : Growable roots m) (hgrow : Grow roots m m') {l T : ℕ} {path : List ℕ}
    (hT : T ∈ paging.tables m.memory roots l) (hpath : ∀ i ∈ path, i ∈ paging.slots)
    (hlen : l + path.length < 4) :
    paging.walk m'.memory l T path = paging.walk m.memory l T path ∨
      (paging.walk m.memory l T path = none ∧
        ∃ f, paging.walk m'.memory l T path = some f ∧ ∀ i, m'.memory f i = 0) := by
  cases hgrow with
  | same hpool hmem =>
    rw [hmem]
    exact Or.inl rfl
  | table l' p w f hl' hT' hi hold hw hf hne hpool hmem =>
    have hnot := (h.fresh hf hne).2
    have hoff := cleared_off m.memory f
    have htable : p.table ≠ f := fun heq => hnot ⟨l', Nat.lt_succ_of_lt hl', heq ▸ hT'⟩
    have hlev := leveled_off h.leveled hnot hoff
    have hmove {k T : ℕ} (hk : k ≤ 4) (hT : T ∈ paging.tables m.memory roots k) :
        T ∈ paging.tables (Function.update m.memory f fun _ => 0) roots k := by
      rwa [tables_off hnot hoff hk]
    have hempty : l' + 1 < paging.depth → paging.Empty (Function.update m.memory f fun _ => 0) (l' + 1) f := by
      intro _ j _
      rw [Function.update_self, child_zero]
    have hold' : paging.child l' p.index (Function.update m.memory f (fun _ => 0) p.table p.index) = none := by
      rw [hoff p.table htable]
      exact hold
    have hwalk := hlev.walk_graft (Nat.lt_succ_of_lt hl') (hmove (by omega) hT') hold' hw
      (Ne.symm htable) hempty (hmove (by omega) hT) hpath (Nat.le_of_lt hlen)
    rw [walk_off hnot hoff hT hpath (by omega)] at hwalk
    rw [hmem]
    refine hwalk.imp_right fun hnew => ⟨hnew.1, f, hnew.2.1, fun i => ?_⟩
    rw [Links.store_of_ne _ w fun heq => htable heq.1.symm, Function.update_self]

/-- Growth does not change the leaf words of the tables that exist. -/
theorem Growable.leaf_grow (h : Growable roots m) (hgrow : Grow roots m m') {pt : ℕ}
    (hpt : pt ∈ paging.tables m.memory roots 3) : m'.memory pt = m.memory pt := by
  cases hgrow with
  | same hpool hmem => rw [hmem]
  | table l p w f hl hT hi hold hw hf hne hpool hmem =>
    have hnot := (h.fresh hf hne).2
    have hoff := cleared_off m.memory f
    have hptf : pt ≠ f := fun heq => hnot ⟨3, by decide, heq ▸ hpt⟩
    have hlevel : pt ≠ p.table := by
      intro heq
      have hthree := h.leveled 3 (by decide) l (Nat.lt_succ_of_lt hl) p.table (heq ▸ hpt) hT
      omega
    funext i
    rw [hmem, Links.store_of_ne _ w fun heq => hlevel heq.1, hoff pt hptf]

/-- Growth does not change the entry seen at any address. -/
theorem Growable.leafEntry_grow (h : Growable roots m) (hgrow : Grow roots m m') {cr3 : ℕ}
    (hcr3 : align cr3 ∈ roots) (va : ℕ) : leafEntry m'.memory cr3 va = leafEntry m.memory cr3 va := by
  have hroot : align cr3 ∈ paging.tables m.memory roots 0 := hcr3
  unfold leafEntry
  rcases h.walk_grow hgrow hroot (indices_mem va) (by simp [indices]) with hsame | ⟨hnone, f, hnew, hclear⟩
  · rw [hsame]
    split
    next => rfl
    next pt hpt => rw [h.leaf_grow hgrow (Links.walk_mem hroot (indices_mem va) hpt)]
  · rw [hnone, hnew]
    exact hclear _

end Step

/-- What the levels of a walk can do one after the other. -/
def Grown (roots : Finset ℕ) : Machine → Machine → Prop := Relation.ReflTransGen (Grow roots)

section Walk

variable {roots : Finset ℕ} {m m' : Machine}

/-- A property that one growth keeps is kept by a whole walk. -/
theorem Grown.invariant (inv : Machine → Prop)
    (hstep : ∀ a b, Growable roots a → Grow roots a b → inv a → inv b)
    (h : Growable roots m) (hgrown : Grown roots m m') (hinit : inv m) : Growable roots m' ∧ inv m' := by
  induction hgrown with
  | refl => exact ⟨h, hinit⟩
  | tail _ hlast ih => exact ⟨ih.1.grow hlast, hstep _ _ ih.1 hlast ih.2⟩

/-- Growing keeps the free frames unreferenced. -/
theorem Grown.growable (hgrown : Grown roots m m') (h : Growable roots m) : Growable roots m' :=
  (Grown.invariant (fun _ => True) (fun _ _ _ _ _ => trivial) h hgrown trivial).1

/-- Growing keeps a walk that reached a table. -/
theorem Grown.walk_some (hgrown : Grown roots m m') (h : Growable roots m) {T D : ℕ} {path : List ℕ}
    (hT : T ∈ roots) (hpath : ∀ i ∈ path, i ∈ paging.slots) (hlen : path.length < 4)
    (hwalk : paging.walk m.memory 0 T path = some D) : paging.walk m'.memory 0 T path = some D := by
  refine (Grown.invariant (fun a => paging.walk a.memory 0 T path = some D) ?_ h hgrown hwalk).2
  intro a b ha hgrow hsome
  have hroot : T ∈ paging.tables a.memory roots 0 := hT
  rcases ha.walk_grow hgrow hroot hpath (by omega) with hsame | ⟨hnone, -⟩
  · rw [hsame, hsome]
  · rw [hsome] at hnone
    exact absurd hnone (by simp)

/-- Growing does not change the entry seen at any address. -/
theorem Grown.leafEntry (hgrown : Grown roots m m') (h : Growable roots m) {cr3 : ℕ}
    (hcr3 : align cr3 ∈ roots) (va : ℕ) : leafEntry m'.memory cr3 va = Cthulhu.leafEntry m.memory cr3 va := by
  refine (Grown.invariant (fun a => Cthulhu.leafEntry a.memory cr3 va = Cthulhu.leafEntry m.memory cr3 va)
    ?_ h hgrown rfl).2
  intro a b ha hgrow hsame
  rw [ha.leafEntry_grow hgrow hcr3 va, hsame]

/-- Growing keeps the layout of the pool. -/
theorem Grown.layout (hgrown : Grown roots m m') (h : Growable roots m) :
    m'.framePool.map SectionInfo.layout = m.framePool.map SectionInfo.layout := by
  refine (Grown.invariant (fun a => a.framePool.map SectionInfo.layout = m.framePool.map SectionInfo.layout)
    ?_ h hgrown rfl).2
  intro a b ha hgrow hsame
  cases hgrow with
  | same hpool => rw [hpool, hsame]
  | table l p w f hl hT hi hold hw hf hne hpool =>
    obtain ⟨-, -, -, hlayout, -⟩ := ha.pool.taken hf hne
    rw [hpool, hlayout, hsame]

/-- Growing keeps the active root and the mirror flag. -/
theorem Grown.config (hgrown : Grown roots m m') (h : Growable roots m) :
    m'.activePage = m.activePage ∧ m'.memMirrorPresent = m.memMirrorPresent := by
  refine (Grown.invariant (fun a => a.activePage = m.activePage ∧
    a.memMirrorPresent = m.memMirrorPresent) ?_ h hgrown ⟨rfl, rfl⟩).2
  intro a b _ hgrow hsame
  cases hgrow with
  | same hpool hmem hactive hmirror => exact ⟨hactive.trans hsame.1, hmirror.trans hsame.2⟩
  | table l p w f hl hT hi hold hw hf hne hpool hmem hactive hmirror =>
    exact ⟨hactive.trans hsame.1, hmirror.trans hsame.2⟩

/-- What one level of an allocating walk can do: pass a table that exists, stop with the pool exhausted,
or link a cleared frame as a new table. -/
inductive Descent (l : ℕ) (entry : Slot) (m : Machine) : Option ℕ × Machine → Prop
  | passed (C : ℕ) (hchild : paging.child l entry.index (m.load entry) = some C) : Descent l entry m (some C, m)
  | exhausted (hold : paging.child l entry.index (m.load entry) = none)
    (hzero : (getFreeFrame m.framePool).1 = 0) : Descent l entry m (none, m.unlock .frame)
  | linked (w f : ℕ) (m' : Machine) (hold : paging.child l entry.index (m.load entry) = none)
    (hw : paging.child l entry.index w = some f) (hf : f = (getFreeFrame m.framePool).1) (hne : f ≠ 0)
    (hpool : m'.framePool = (getFreeFrame m.framePool).2)
    (hmem : m'.memory = Links.store (Function.update m.memory f fun _ => 0) entry.table entry.index w)
    (hactive : m'.activePage = m.activePage) (hmirror : m'.memMirrorPresent = m.memMirrorPresent) :
    Descent l entry m (some f, m')

/-- A level without its table takes a fresh frame, clears it and links it. -/
theorem descend_fresh (hpool : PoolInv m.framePool) (hnonempty : m.framePool ≠ []) {entry : Slot}
    (habsent : present (m.load entry) = false) (hne : (getFreeFrame m.framePool).1 ≠ 0)
    (htable : entry.table ≠ (getFreeFrame m.framePool).1) (user : Bool) :
    ∃ m', m.descend entry true user = (some (getFreeFrame m.framePool).1, m') ∧
      m'.framePool = (getFreeFrame m.framePool).2 ∧
      m'.memory = Links.store (Function.update m.memory (getFreeFrame m.framePool).1 fun _ => 0) entry.table
        entry.index (tableEntry (getFreeFrame m.framePool).1 user) ∧
      m'.activePage = m.activePage ∧ m'.memMirrorPresent = m.memMirrorPresent := by
  obtain ⟨hframe, -, -, -, -, -⟩ := hpool.taken rfl hne
  have haligned := align_tableEntry user (hpool.frame_aligned hframe).1
  unfold Machine.descend
  simp only [habsent, Bool.false_eq_true, if_false, if_true, Machine.getFreeFrame_eq hnonempty, hne]
  rw [haligned]
  -- the machine the source goes on with, and the entry it reads back from it
  generalize hnext : ({ m with framePool := (getFreeFrame m.framePool).2 }.store entry
    (tableEntry (getFreeFrame m.framePool).1 user)).fill (getFreeFrame m.framePool).1 0 = m'
  have hmem : m'.memory = Links.store (Function.update m.memory (getFreeFrame m.framePool).1 fun _ => 0)
      entry.table entry.index (tableEntry (getFreeFrame m.framePool).1 user) := by
    unfold Links.store
    rw [Function.update_comm htable.symm, cleared_off m.memory _ entry.table htable, ← hnext]
    rfl
  refine ⟨m', ?_, by rw [← hnext]; rfl, hmem, by rw [← hnext]; rfl, by rw [← hnext]; rfl⟩
  unfold Machine.load
  rw [hmem, Links.store_self, haligned]

/-- One level of an allocating walk does one of these. -/
theorem Growable.descend (h : Growable roots m) {l : ℕ} (entry : Slot) (hl : l < 3)
    (hT : entry.table ∈ paging.tables m.memory roots l) (hmirror : ¬ (l = 0 ∧ entry.index = 510)) (user : Bool) :
    Descent l entry m (m.descend entry true user) := by
  cases hpresent : present (m.load entry) with
  | true =>
    unfold Machine.descend
    simp only [hpresent, if_true]
    exact .passed _ (child_upper hl hmirror hpresent)
  | false =>
    by_cases hzero : (getFreeFrame m.framePool).1 = 0
    · unfold Machine.descend
      simp only [hpresent, Bool.false_eq_true, if_false, if_true, Machine.getFreeFrame_eq h.nonempty, hzero]
      exact .exhausted (child_of_not_present hpresent) hzero
    · obtain ⟨hframe, -, -, -, -, -⟩ := h.pool.taken rfl hzero
      have hnot := (h.fresh rfl hzero).2
      have htable : entry.table ≠ (getFreeFrame m.framePool).1 :=
        fun heq => hnot ⟨l, Nat.lt_succ_of_lt hl, heq ▸ hT⟩
      have hw := child_upper hl hmirror (present_tableEntry (getFreeFrame m.framePool).1 user)
      rw [align_tableEntry user (h.pool.frame_aligned hframe).1] at hw
      obtain ⟨m', hdescend, hpool, hmem, hactive, hmirror⟩ :=
        descend_fresh h.pool h.nonempty hpresent hzero htable user
      rw [hdescend]
      exact .linked _ _ m' (child_of_not_present hpresent) hw rfl hzero hpool hmem hactive hmirror

/-- Whatever a level does, the tables grow, and the entry leads to the table returned. -/
theorem Descent.grow {l : ℕ} {entry : Slot} {r : Option ℕ × Machine} (hdescent : Descent l entry m r)
    (hl : l < 3) (hT : entry.table ∈ paging.tables m.memory roots l) (hi : entry.index < 512) :
    Grow roots m r.2 ∧ ∀ C, r.1 = some C → paging.child l entry.index (r.2.load entry) = some C := by
  cases hdescent with
  | passed C hchild =>
    refine ⟨.same rfl rfl rfl rfl, fun C' hC' => ?_⟩
    rw [← hC']
    exact hchild
  | exhausted hold hzero => exact ⟨.same rfl rfl rfl rfl, fun C' hC' => absurd hC' (by simp)⟩
  | linked w f m' hold hw hf hne hpool hmem hactive hmirror =>
    refine ⟨.table l entry w f hl hT hi hold hw hf hne hpool hmem hactive hmirror, fun C' hC' => ?_⟩
    rw [← hC', ← hw]
    unfold Machine.load
    rw [hmem, Links.store_self]

end Walk

end Cthulhu
