import Cthulhu.Memory.AllOrNothing

/-!
# The rights of a page

The processor grants user mode a write where the entry of every level is present, writable and open for
the user. `allocate` for user mode gives these rights to the leaf entries and to every table it creates,
and leaves the entries above the leaves that it finds as they are.
-/

namespace Cthulhu

open Lib

/-- The entry that the processor reads at a level of the walk for an address. -/
def entryOn (mem : Memory) (cr3 va l : ℕ) : Option ℕ :=
  (paging.walk mem 0 (align cr3) ((indices va).take l)).map fun T => mem T ((indices va ++ [tableIndex va]).getD l 0)

/-- The entry lets user mode write. -/
def Writes (w : ℕ) : Prop := bit w 1 = true ∧ bit w 2 = true

instance (w : ℕ) : Decidable (Writes w) := inferInstanceAs (Decidable (_ ∧ _))

/-- User mode can write to the page of an address. -/
def UserWritable (mem : Memory) (cr3 va : ℕ) : Prop := ∀ l < 4, ∃ w, entryOn mem cr3 va l = some w ∧ present w = true ∧ Writes w

/-- Above the leaves, a present entry that was not there lets user mode write. -/
def Widens (roots : Finset ℕ) (m m' : Machine) : Prop :=
  ∀ l < 3, ∀ T ∈ paging.tables m'.memory roots l, ∀ i < 512, present (m'.memory T i) = true →
    Writes (m'.memory T i) ∨ T ∈ paging.tables m.memory roots l ∧ m'.memory T i = m.memory T i

/-- The entry of a new table lets user mode write. -/
theorem writes_tableEntry (f : ℕ) : Writes (tableEntry f true) := by
  unfold Writes tableEntry
  rw [bit_setBit_self, bit_setBit_of_ne _ _ (by decide), bit_setBit_self]
  exact ⟨rfl, rfl⟩

/-- The entry of a page allocated for user mode lets it write. -/
theorem writes_pageFlags (a : ℕ) (exec : Bool) : Writes (Machine.pageFlags a false false exec) := by
  unfold Writes Machine.pageFlags
  rw [bit_setBit_of_ne _ _ (by decide), bit_setBit_of_ne _ _ (by decide), bit_setBit_self,
    bit_setBit_of_ne _ _ (by decide), bit_setBit_self]
  exact ⟨rfl, rfl⟩

section Widens

variable {roots : Finset ℕ} {m m' m'' : Machine} {cr3 va : ℕ}

/-- A change of no memory adds nothing. -/
theorem Widens.of_memory (h : m'.memory = m.memory) : Widens roots m m' := by
  intro l _ T hT i _ _
  rw [h] at hT ⊢
  exact Or.inr ⟨hT, rfl⟩

/-- What is added in two stages. -/
theorem Widens.trans (h : Widens roots m m') (h' : Widens roots m' m'') : Widens roots m m'' := by
  intro l hl T hT i hi hpresent
  rcases h' l hl T hT i hi hpresent with hwrites | ⟨hT', heq⟩
  · exact Or.inl hwrites
  · rw [heq] at hpresent ⊢
    exact h l hl T hT' i hi hpresent

/-- A level of a walk for user mode adds an open table or nothing. -/
theorem Growable.descend_widens (h : Growable roots m) {l : ℕ} (hl : l < 3) {entry : Slot}
    (hT : entry.table ∈ paging.tables m.memory roots l) (hi : entry.index < 512) (hmirror : ¬ (l = 0 ∧ entry.index = 510)) :
    Widens roots m (m.descend entry true true).2 := by
  cases hpresent : present (m.load entry) with
  | true =>
    unfold Machine.descend
    simp only [hpresent, if_true]
    exact .of_memory rfl
  | false =>
    by_cases hzero : (getFreeFrame m.framePool).1 = 0
    · unfold Machine.descend
      simp only [hpresent, Bool.false_eq_true, if_false, if_true, Machine.getFreeFrame_eq h.nonempty, hzero]
      exact .of_memory rfl
    · obtain ⟨hframe, -, -, -, -, -⟩ := h.pool.taken rfl hzero
      have hnot := (h.fresh rfl hzero).2
      have htable : entry.table ≠ (getFreeFrame m.framePool).1 := fun heq => hnot ⟨l, Nat.lt_succ_of_lt hl, heq ▸ hT⟩
      obtain ⟨m', hdescend, -, hmem, -, -⟩ := descend_fresh h.pool h.nonempty hpresent hzero htable true
      have hw := child_upper hl hmirror (present_tableEntry (getFreeFrame m.framePool).1 true)
      rw [align_tableEntry true (h.pool.frame_aligned hframe).1] at hw
      obtain ⟨-, htables, -⟩ := h.link_effect (Nat.lt_succ_of_lt hl) hT hi (child_of_not_present hpresent) hw rfl hzero
        (cleared_off m.memory _) fun _ j _ => by rw [Function.update_self]
      rw [hdescend]
      intro k hk T hTk i _ hword
      rw [hmem] at hTk
      rw [htables k (by omega)] at hTk
      by_cases hnew : T = (getFreeFrame m.framePool).1
      · -- the new table is clear
        rw [hmem, Links.store_of_ne _ _ fun hhere => htable (hhere.1.symm.trans hnew), hnew, Function.update_self] at hword
        exact absurd hword (by decide)
      · have hold : T ∈ paging.tables m.memory roots k := by
          split at hTk
          · exact (Finset.mem_insert.mp hTk).resolve_left hnew
          · exact hTk
        rw [linked_word hmem hnew]
        split
        · exact Or.inl (writes_tableEntry _)
        · exact Or.inr ⟨hold, rfl⟩

/-- A walk for user mode adds open tables or nothing. -/
theorem Growable.getPage_widens (h : Growable roots m) (hcr3 : align cr3 ∈ roots) (hva : pmlIndex va ≠ 510) :
    Widens roots m (m.getPage va cr3 true true).2 := by
  have hrule := h.getPage_levels hcr3 hva true (fun _ _ a => Widens roots m a) (Widens roots m) (.of_memory rfl)
    fun l hl T a ha hwalk hgood => ?_
  · rcases hrule with ⟨-, hwidens⟩ | ⟨-, -, hwidens, -, -⟩
    · exact hwidens
    · exact hwidens
  · obtain ⟨hT, hi⟩ := indices_slot hcr3 hl hwalk
    have hmirror : ¬ (l = 0 ∧ (indices va).getD l 0 = 510) := by
      rintro ⟨rfl, hindex⟩
      exact hva hindex
    have hlevel : Widens roots a (a.descend ⟨T, (indices va).getD l 0⟩ true true).2 := ha.descend_widens hl hT hi hmirror
    have hnext := hgood.trans hlevel
    exact ⟨fun _ => hnext, fun _ _ => hnext⟩

/-- Writing a leaf entry adds nothing above the leaves. -/
theorem Growable.leafStore_widens (h : Growable roots m) {p : Slot} (hp : LeafSlot roots m p) {filled : Memory}
    (hagree : ∀ l < 4, ∀ T ∈ paging.tables m.memory roots l, filled T = m.memory T) {w : ℕ}
    (hmem : m'.memory = Links.store filled p.table p.index w) : Widens roots m m' := by
  obtain ⟨htables, hwords⟩ := h.tables_leafStore hp hagree w
  intro l hl T hT i _ _
  rw [hmem] at hT ⊢
  rw [htables l (by omega)] at hT
  exact Or.inr ⟨hT, by rw [hwords l hl T hT]⟩

end Widens

/-- The page is present, and `allocate_frame` would return a zero address for it: it maps the frame at zero. -/
def MapsZero (mem : Memory) (cr3 va : ℕ) : Prop :=
  present (leafEntry mem cr3 va) = true ∧ align (Machine.pageFlags (align (leafEntry mem cr3 va)) false false false) = 0

section Round

variable {roots : Finset ℕ} {m : Machine} {cr3 va : ℕ}

/-- What a round of `allocate` for user mode does: it maps its page, or stops there. -/
structure UserRound (roots : Finset ℕ) (cr3 va : ℕ) (m : Machine) (r : Machine × Option ℕ) : Prop where
  ready : Mappable roots r.1
  widens : Widens roots m r.1
  others : ∀ page, ¬ SamePage page va → leafEntry r.1.memory cr3 page = leafEntry m.memory cr3 page
  done : r.2 = none → present (leafEntry r.1.memory cr3 va) = true ∧ Writes (leafEntry r.1.memory cr3 va) ∧
    ¬ MapsZero m.memory cr3 va
  stopped : r.2 ≠ none → r.2 = some va ∧ (present (leafEntry r.1.memory cr3 va) = true → MapsZero m.memory cr3 va)

/-- Every round does this. -/
theorem Mappable.userRound (h : Mappable roots m) (hcr3 : align cr3 ∈ roots) (hva : pmlIndex va ≠ 510) :
    UserRound roots cr3 va m (Machine.allocatePage false false cr3 (m, none) va) := by
  have hlocked : Mappable roots (m.lock .frame) := h.same rfl rfl
  obtain ⟨hgrown, hresult⟩ := hlocked.growable.getPage hcr3 hva true
  have hwidens : Widens roots m ((m.lock .frame).getPage va cr3 true true).2 :=
    Widens.trans (.of_memory rfl) (hlocked.growable.getPage_widens hcr3 hva)
  have hwalked := hlocked.grown hgrown
  have hentries (page : ℕ) : leafEntry ((m.lock .frame).getPage va cr3 true true).2.memory cr3 page =
      leafEntry m.memory cr3 page := hgrown.leafEntry hlocked.growable hcr3 page
  have hfound (hpresent : present (leafEntry m.memory cr3 va) = true) :
      ((m.lock .frame).getPage va cr3 true true).1 ≠ none := by
    cases hwalk : paging.walk m.memory 0 (align cr3) (indices va) with
    | none =>
      rw [leafEntry_of_none hwalk] at hpresent
      exact absurd hpresent (by decide)
    | some pt =>
      have hpage : paging.walk (m.lock .frame).memory 0 (align cr3) (indices va) = some pt := hwalk
      rw [Machine.getPage_of_walk hpage]
      exact Option.some_ne_none _
  unfold Machine.allocatePage
  rw [if_neg (not_not.mpr rfl), Bool.not_false]
  dsimp only
  generalize (m.lock .frame).getPage va cr3 true true = r at hresult hwidens hwalked hentries hfound
  rcases hresult with ⟨hnone, -⟩ | ⟨pt, hslot, hwalk⟩
  · rw [hnone]
    refine ⟨hwalked, hwidens, fun page _ => hentries page, fun hgo => absurd hgo (by simp), fun _ => ⟨rfl, fun hpresent => ?_⟩⟩
    dsimp only at hpresent
    rw [hentries] at hpresent
    exact absurd hnone (hfound hpresent)
  · rw [hslot]
    dsimp only
    have hleaf := leafSlot_of_walk hcr3 hwalk
    have hold : r.2.load ⟨pt, tableIndex va⟩ = leafEntry m.memory cr3 va :=
      (leafEntry_of_some hwalk).symm.trans (hentries va)
    have hnext := hwalked.allocateFrame hleaf false false false
    have hgiven := hwalked.growable.frameGiven hwalked.below hleaf false false false
    generalize r.2.allocateFrame ⟨pt, tableIndex va⟩ false false false = given at hnext hgiven
    cases hgiven with
    | rewritten hpresent hentry hm =>
      have hmem : given.2.memory = Links.store r.2.memory pt (tableIndex va)
          (Machine.pageFlags (align (leafEntry m.memory cr3 va)) false false false) := by
        rw [hm, hold]
        rfl
      obtain ⟨hsame, hothers⟩ := hwalked.leafEntry_store hcr3 hwalk (fun _ _ _ _ => rfl) hmem
      have hall := hwidens.trans (hwalked.growable.leafStore_widens hleaf (fun _ _ _ _ => rfl) hmem)
      rw [hold] at hpresent hentry
      split
      next hzero =>
        exact ⟨hnext, hall, fun page hother => (hothers page hother).trans (hentries page), fun hgo => absurd hgo (by simp),
          fun _ => ⟨rfl, fun _ => ⟨hpresent, hentry ▸ hzero⟩⟩⟩
      next hne =>
        refine ⟨hnext.same rfl rfl, hall.trans (.of_memory rfl), fun page hother => (hothers page hother).trans (hentries page),
          fun _ => ?_, fun hstop => absurd rfl hstop⟩
        rw [show (given.2.unlock .frame).memory = given.2.memory from rfl, hsame va rfl]
        exact ⟨present_pageFlags _ _ _ _, writes_pageFlags _ _, fun hzero => hne (hentry.trans hzero.2)⟩
    | exhausted habsent hnone hentry hm =>
      rw [if_pos hentry]
      have hmem : given.2.memory = r.2.memory := by rw [hm]; rfl
      refine ⟨hnext, hwidens.trans (.of_memory hmem), fun page _ => ?_, fun hgo => absurd hgo (by simp),
        fun _ => ⟨rfl, fun hpresent => ?_⟩⟩
      · dsimp only
        rw [hmem]
        exact hentries page
      · dsimp only at hpresent
        rw [hmem, hentries, ← hold, habsent] at hpresent
        exact absurd hpresent (by decide)
    | fresh f filled habsent hf hne hoff hentry hmem hpool hactive =>
      rw [if_neg hentry]
      have hnot := (hwalked.growable.fresh hf hne).2
      have hagree : ∀ l < 4, ∀ T ∈ paging.tables r.2.memory roots l, filled T = r.2.memory T :=
        fun l hl T hT => hoff T fun heq => hnot ⟨l, hl, heq ▸ hT⟩
      obtain ⟨hsame, hothers⟩ := hwalked.leafEntry_store hcr3 hwalk hagree hmem
      refine ⟨hnext.same rfl rfl, (hwidens.trans (hwalked.growable.leafStore_widens hleaf hagree hmem)).trans (.of_memory rfl),
        fun page hother => (hothers page hother).trans (hentries page), fun _ => ?_, fun hstop => absurd rfl hstop⟩
      rw [show (given.2.unlock .frame).memory = given.2.memory from rfl, hsame va rfl]
      refine ⟨present_pageFlags _ _ _ _, writes_pageFlags _ _, fun hzero => ?_⟩
      rw [hold] at habsent
      exact absurd (habsent.symm.trans hzero.1) (by decide)

/-- What the rounds of `allocate` for user mode do to a list of different pages: they map them all, or they
map the first ones and stop at the next. -/
structure UserRounds (roots : Finset ℕ) (cr3 : ℕ) (done : List ℕ) (m b : Machine) : Prop where
  ready : Mappable roots b
  widens : Widens roots m b
  mapped : ∀ p ∈ done, present (leafEntry b.memory cr3 p) = true ∧ Writes (leafEntry b.memory cr3 p) ∧ ¬ MapsZero m.memory cr3 p
  others : ∀ page, (∀ p ∈ done, ¬ SamePage page p) → leafEntry b.memory cr3 page = leafEntry m.memory cr3 page

/-- No round changes nothing. -/
theorem UserRounds.refl (h : Mappable roots m) : UserRounds roots cr3 [] m m where
  ready := h
  widens := .of_memory rfl
  mapped := fun _ hp => absurd hp List.not_mem_nil
  others := fun _ _ => rfl

/-- The entry of a page decides whether it maps the frame at zero. -/
theorem mapsZero_congr {mem mem' : Memory} (h : leafEntry mem' cr3 va = leafEntry mem cr3 va) :
    MapsZero mem' cr3 va ↔ MapsZero mem cr3 va := by
  unfold MapsZero
  rw [h]

/-- One more page is mapped. -/
theorem UserRounds.concat {done : List ℕ} {a b : Machine} (h : UserRounds roots cr3 done m a)
    (hround : UserRound roots cr3 va a (b, none)) (hapart : ∀ p ∈ done, ¬ SamePage p va) :
    UserRounds roots cr3 (done ++ [va]) m b where
  ready := hround.ready
  widens := h.widens.trans hround.widens
  mapped := by
    intro p hp
    rcases List.mem_append.mp hp with hp | hp
    · rw [hround.others p (hapart p hp)]
      exact h.mapped p hp
    · rw [List.mem_singleton.mp hp]
      obtain ⟨hpresent, hwrites, hzero⟩ := hround.done rfl
      exact ⟨hpresent, hwrites, fun hbefore => hzero ((mapsZero_congr (h.others va fun p hp hsame =>
        hapart p hp hsame.symm)).mpr hbefore)⟩
  others := by
    intro page houtside
    rw [hround.others page (houtside va (by simp))]
    exact h.others page fun p hp => houtside p (List.mem_append_left _ hp)

/-- The loop of `allocate` for user mode. -/
theorem UserRounds.run {done : List ℕ} {a : Machine} (h : UserRounds roots cr3 done m a) (hcr3 : align cr3 ∈ roots)
    (todo : List ℕ) (hout : ∀ p ∈ todo, pmlIndex p ≠ 510) (hdistinct : (done ++ todo).Pairwise fun p q => ¬ SamePage p q) :
    (∃ b, run (Machine.allocatePage false false cr3) (a, none) todo = (b, none) ∧ UserRounds roots cr3 (done ++ todo) m b) ∨
      ∃ made va rest c b, todo = made ++ va :: rest ∧
        run (Machine.allocatePage false false cr3) (a, none) todo = (b, some va) ∧
        UserRounds roots cr3 (done ++ made) m c ∧ UserRound roots cr3 va c (b, some va) := by
  induction todo generalizing done a with
  | nil =>
    refine Or.inl ⟨a, rfl, ?_⟩
    rw [List.append_nil]
    exact h
  | cons va todo ih =>
    rw [List.forall_mem_cons] at hout
    have hround := h.ready.userRound hcr3 hout.1
    have hrun : Lib.run (Machine.allocatePage false false cr3) (a, none) (va :: todo) =
        Lib.run (Machine.allocatePage false false cr3) (Machine.allocatePage false false cr3 (a, none) va) todo := rfl
    rw [hrun]
    generalize Machine.allocatePage false false cr3 (a, none) va = st at hround
    obtain ⟨b, stop⟩ := st
    cases stop with
    | some stop =>
      obtain ⟨hstop, -⟩ := hround.stopped (Option.some_ne_none stop)
      dsimp only at hstop
      rw [hstop] at hround ⊢
      refine Or.inr ⟨[], va, todo, a, b, rfl, Machine.allocatePage_stopped _ _ _ (by simp) todo, ?_, hround⟩
      rw [List.append_nil]
      exact h
    | none =>
      rw [List.append_cons] at hdistinct
      have hapart : ∀ p ∈ done, ¬ SamePage p va := fun p hp =>
        (List.pairwise_append.mp (List.pairwise_append.mp hdistinct).1).2.2 p hp va (by simp)
      rcases ih (h.concat hround hapart) hout.2 hdistinct with ⟨b', hb', hall⟩ | ⟨made, va', rest, c, b', htodo, hb', hmade, hlast⟩
      · rw [List.append_assoc] at hall
        exact Or.inl ⟨b', hb', hall⟩
      · rw [List.append_assoc] at hmade
        exact Or.inr ⟨va :: made, va', rest, c, b', by rw [htodo]; rfl, hb', hmade, hlast⟩

end Round

section Rights

variable {roots : Finset ℕ} {m b : Machine} {cr3 va : ℕ} {pages : List ℕ}

/-- The entry of a leaf. -/
theorem entryOn_leaf (mem : Memory) (cr3 va : ℕ) : entryOn mem cr3 va 3 =
    (paging.walk mem 0 (align cr3) (indices va)).map fun T => mem T (tableIndex va) := rfl

/-- A page that user mode can write to is present. -/
theorem UserWritable.present {mem : Memory} (h : UserWritable mem cr3 va) : present (leafEntry mem cr3 va) = true := by
  obtain ⟨w, hw, hpresent, -⟩ := h 3 (by decide)
  rw [entryOn_leaf] at hw
  obtain ⟨pt, hwalk, rfl⟩ := Option.map_eq_some_iff.mp hw
  rw [leafEntry_of_some hwalk]
  exact hpresent

end Rights

end Cthulhu
