import Cthulhu.Memory.LeafEntries
import Cthulhu.Memory.Paging

/-!
# Changing the type of pages

`mem_change_type` sets one bit in the entries of a range of pages. It tests the presence bit the wrong
way round, so that it changes the entries that are not present; it walks with the variant that
creates missing tables; and it goes through the range from an unaligned start, so that it can miss
the last page.
-/

namespace Cthulhu

open Lib

namespace Machine

variable (m : Machine) (start amount : ℕ) (changeType : ChangeType) (newValue : Bool) (cr3 : ℕ)

/-- The pages that `mem_change_type` goes through. -/
def changePages : List ℕ := pageRange start (add64 start (pageAlignUp amount))

/-- The word is the present entry of a page with a byte of the range. -/
def InChange (table index : ℕ) : Prop :=
  present (m.memory table index) = true ∧
    ∃ k < amount, (m.getPage (add64 start k) cr3 false false).1 = some ⟨table, index⟩

/-- The call returns, sets the bit in every present entry of the range, and changes no other word. -/
def ChangesExactly : Prop :=
  (m.memChangeType start amount changeType newValue cr3).1 = true ∧
    ∀ table index,
      (m.InChange start amount cr3 table index →
        (m.memChangeType start amount changeType newValue cr3).2.memory table index =
          changedEntry (m.memory table index) changeType newValue) ∧
      (¬ m.InChange start amount cr3 table index →
        (m.memChangeType start amount changeType newValue cr3).2.memory table index = m.memory table index)

/-- There is nothing to change: the present pages of the range have the type already, and so have the
other pages that the call goes through, whose tables exist. -/
structure NothingToChange : Prop where
  covered : ∀ table index, m.InChange start amount cr3 table index →
    changedEntry (m.memory table index) changeType newValue = m.memory table index
  visited : ∀ a ∈ changePages start amount, ∃ p, (m.getPage a cr3 false false).1 = some p ∧
    (present (m.load p) = true ∨ changedEntry (m.load p) changeType newValue = m.load p)

/-- The range lies outside the mirror of physical memory. -/
def OutsideMirror : Prop := ∀ k < amount, pmlIndex (add64 start k) ≠ 510

end Machine

/-- The bits that are set are not the presence bit. -/
theorem present_changedEntry (entry : ℕ) (changeType : Machine.ChangeType) (newValue : Bool) :
    present (Machine.changedEntry entry changeType newValue) = present entry := by
  unfold Machine.changedEntry present
  cases changeType with
  | rw => exact bit_setBit_of_ne _ _ (by decide)
  | su => exact bit_setBit_of_ne _ _ (by decide)
  | other => rfl

/-- Setting a bit twice is setting it once. -/
theorem changedEntry_idem (entry : ℕ) (changeType : Machine.ChangeType) (newValue : Bool) :
    Machine.changedEntry (Machine.changedEntry entry changeType newValue) changeType newValue =
      Machine.changedEntry entry changeType newValue := by
  cases changeType with
  | rw => exact (setBit_eq_self_iff _ _ _).mpr (bit_setBit_self _ _ _)
  | su => exact (setBit_eq_self_iff _ _ _).mpr (bit_setBit_self _ _ _)
  | other => rfl

/-- The pages gone through hold bytes of the range. -/
theorem mem_changePages {start amount a : ℕ} (ha : a ∈ Machine.changePages start amount) :
    ∃ k < amount, add64 start k = a := by
  obtain ⟨i, rfl, hlt⟩ := mem_pageRange.mp ha
  have hup : pageAlignUp amount % 0x1000 = 0 ∧ pageAlignUp amount < amount + 0x1000 := by
    unfold pageAlignUp
    split
    · omega
    · have hmod := align_mod (add64 amount 0x1000)
      have hle := align_le (add64 amount 0x1000)
      unfold add64 at hmod hle ⊢
      omega
  unfold add64 at hlt
  refine ⟨0x1000 * i, by omega, ?_⟩
  unfold add64
  omega

section Step

variable {roots : Finset ℕ} {m : Machine} {cr3 : ℕ} (changeType : Machine.ChangeType) (newValue : Bool)

/-- What a call of `mem_change_type` keeps: the tables stay apart, the walks stay, and so do the present
entries. -/
structure KeepsPresent (roots : Finset ℕ) (cr3 : ℕ) (m m' : Machine) : Prop where
  growable : Growable roots m'
  walks : ∀ va D, paging.walk m.memory 0 (align cr3) (indices va) = some D →
    paging.walk m'.memory 0 (align cr3) (indices va) = some D
  absent : ∀ va, present (leafEntry m'.memory cr3 va) = present (leafEntry m.memory cr3 va)
  entries : ∀ va, present (leafEntry m.memory cr3 va) = true → leafEntry m'.memory cr3 va = leafEntry m.memory cr3 va

/-- Nothing done keeps everything. -/
theorem KeepsPresent.refl (h : Growable roots m) : KeepsPresent roots cr3 m m :=
  ⟨h, fun _ _ hwalk => hwalk, fun _ => rfl, fun _ _ => rfl⟩

/-- Two changes one after the other. -/
theorem KeepsPresent.trans {m' m'' : Machine} (h : KeepsPresent roots cr3 m m') (h' : KeepsPresent roots cr3 m' m'') :
    KeepsPresent roots cr3 m m'' :=
  ⟨h'.growable, fun va D hwalk => h'.walks va D (h.walks va D hwalk), fun va => (h'.absent va).trans (h.absent va),
    fun va hpresent => (h'.entries va ((h.absent va).trans hpresent)).trans (h.entries va hpresent)⟩

/-- A walk that creates tables keeps the present entries. -/
theorem Grown.keepsPresent {m' : Machine} (hgrown : Grown roots m m') (h : Growable roots m)
    (hcr3 : align cr3 ∈ roots) : KeepsPresent roots cr3 m m' := by
  have hentry := fun va => Grown.leafEntry hgrown h hcr3 va
  exact ⟨hgrown.growable h, fun va D hwalk => Grown.walk_some hgrown h hcr3 (indices_mem va) (show 3 < 4 by decide) hwalk,
    fun va => by rw [hentry va], fun va _ => hentry va⟩

/-- A change of an entry that is not present keeps the present ones. -/
theorem Growable.keepsPresent_store (h : Growable roots m) (hcr3 : align cr3 ∈ roots) {p : Slot}
    (hp : LeafSlot roots m p) (habsent : present (m.load p) = false) :
    KeepsPresent roots cr3 m (m.store p (Machine.changedEntry (m.load p) changeType newValue)) := by
  have hstill : present (Machine.changedEntry (m.load p) changeType newValue) = false := by
    rw [present_changedEntry, habsent]
  have hentry (va : ℕ) : leafEntry (m.store p (Machine.changedEntry (m.load p) changeType newValue)).memory cr3 va = _ :=
    h.leafEntry_store hp (fun _ _ _ _ => rfl) (Machine.changedEntry (m.load p) changeType newValue) hcr3 va
  have hold {va : ℕ} (hslot : paging.walk m.memory 0 (align cr3) (indices va) = some p.table ∧ tableIndex va = p.index) :
      leafEntry m.memory cr3 va = m.load p := by
    rw [leafEntry_of_some hslot.1, hslot.2]
    rfl
  refine ⟨h.storeLeaf hp hstill, fun va D hwalk => ?_, fun va => ?_, fun va hpresent => ?_⟩
  · exact (h.walk_leafStore hp (fun _ _ _ _ => rfl) _ hcr3 va).trans hwalk
  · rw [hentry va]
    split
    next hslot => rw [hold hslot, hstill, habsent]
    next => rfl
  · rw [hentry va]
    split
    next hslot =>
      rw [hold hslot, habsent] at hpresent
      cases hpresent
    next => rfl

/-- One round keeps the present entries, and where it does not fault the tables of its page exist
afterwards. -/
theorem Growable.changePage (h : Growable roots m) (hcr3 : align cr3 ∈ roots) {va : ℕ} (hva : pmlIndex va ≠ 510) :
    KeepsPresent roots cr3 m (Machine.changePage changeType newValue cr3 (m, false) va).1 ∧
      ((Machine.changePage changeType newValue cr3 (m, false) va).2 = false →
        ∃ pt, paging.walk (Machine.changePage changeType newValue cr3 (m, false) va).1.memory 0 (align cr3)
          (indices va) = some pt) := by
  obtain ⟨hgrown, hresult⟩ := h.getPage hcr3 hva false
  have hkeeps := hgrown.keepsPresent h hcr3
  unfold Machine.changePage
  simp only [Bool.false_eq_true, if_false]
  generalize m.getPage va cr3 true false = r at hgrown hresult hkeeps
  rcases hresult with ⟨hnone, -⟩ | ⟨pt, hslot, hwalk⟩
  · rw [hnone]
    exact ⟨hkeeps, fun hstop => Bool.noConfusion (show true = false from hstop)⟩
  · rw [hslot]
    dsimp only
    cases hpresent : present (r.2.load ⟨pt, tableIndex va⟩) with
    | true => exact ⟨hkeeps, fun _ => ⟨pt, hwalk⟩⟩
    | false =>
      have hstored := hkeeps.growable.keepsPresent_store changeType newValue hcr3 (leafSlot_of_walk hcr3 hwalk) hpresent
      exact ⟨hkeeps.trans hstored, fun _ => ⟨pt, hstored.walks va pt hwalk⟩⟩

/-- A call that stopped does nothing more. -/
theorem changePage_stopped (a : Machine) (pages : List ℕ) :
    run (Machine.changePage changeType newValue cr3) (a, true) pages = (a, true) := by
  induction pages with
  | nil => rfl
  | cons va pages ih => exact ih

/-- The rounds keep the present entries, and where none faults the tables of all pages exist afterwards. -/
theorem Growable.changePages (h : Growable roots m) (hcr3 : align cr3 ∈ roots) {pages : List ℕ}
    (hout : ∀ a ∈ pages, pmlIndex a ≠ 510) :
    KeepsPresent roots cr3 m (run (Machine.changePage changeType newValue cr3) (m, false) pages).1 ∧
      ((run (Machine.changePage changeType newValue cr3) (m, false) pages).2 = false → ∀ a ∈ pages,
        ∃ pt, paging.walk (run (Machine.changePage changeType newValue cr3) (m, false) pages).1.memory 0 (align cr3)
          (indices a) = some pt) := by
  induction pages generalizing m with
  | nil => exact ⟨.refl h, fun _ a ha => absurd ha List.not_mem_nil⟩
  | cons va pages ih =>
    rw [List.forall_mem_cons] at hout
    obtain ⟨hkeeps, hwalk⟩ := h.changePage changeType newValue hcr3 hout.1
    have hrun : run (Machine.changePage changeType newValue cr3) (m, false) (va :: pages) =
        run (Machine.changePage changeType newValue cr3) (Machine.changePage changeType newValue cr3 (m, false) va)
          pages := rfl
    rw [hrun]
    generalize Machine.changePage changeType newValue cr3 (m, false) va = r at hkeeps hwalk
    obtain ⟨a, stopped⟩ := r
    cases stopped with
    | true =>
      rw [changePage_stopped]
      exact ⟨hkeeps, fun hgo => Bool.noConfusion (show true = false from hgo)⟩
    | false =>
      obtain ⟨hrest, hwalks⟩ := ih hkeeps.growable hout.2
      refine ⟨hkeeps.trans hrest, fun hgo b hb => ?_⟩
      rcases List.mem_cons.mp hb with rfl | hb
      · obtain ⟨pt, hpt⟩ := hwalk rfl
        exact ⟨pt, hrest.walks b pt hpt⟩
      · exact hwalks hgo b hb

end Step

section Exact

variable {roots : Finset ℕ} {m : Machine} {start amount cr3 : ℕ} {changeType : Machine.ChangeType} {newValue : Bool}

/-- Reading walks see the memory only. -/
theorem Machine.getPage_read {a b : Machine} (h : a.memory = b.memory) (va cr3 : ℕ) (user : Bool) :
    (a.getPage va cr3 false user).1 = (b.getPage va cr3 false user).1 := by
  have hdescend (entry : Slot) : (a.descend entry false user).1 = (b.descend entry false user).1 ∧
      (a.descend entry false user).2 = a ∧ (b.descend entry false user).2 = b := by
    unfold Machine.descend Machine.load
    rw [h]
    cases present (b.memory entry.table entry.index) with
    | true => exact ⟨rfl, rfl, rfl⟩
    | false => exact ⟨rfl, rfl, rfl⟩
  unfold Machine.getPage
  dsimp only
  rw [(hdescend ⟨align cr3, pmlIndex va⟩).1, (hdescend ⟨align cr3, pmlIndex va⟩).2.1,
    (hdescend ⟨align cr3, pmlIndex va⟩).2.2]
  cases (b.descend ⟨align cr3, pmlIndex va⟩ false user).1 with
  | none => rfl
  | some pdpt =>
    dsimp only
    rw [(hdescend ⟨pdpt, directoryPtrIndex va⟩).1, (hdescend ⟨pdpt, directoryPtrIndex va⟩).2.1,
      (hdescend ⟨pdpt, directoryPtrIndex va⟩).2.2]
    cases (b.descend ⟨pdpt, directoryPtrIndex va⟩ false user).1 with
    | none => rfl
    | some pdir =>
      dsimp only
      rw [(hdescend ⟨pdir, directoryIndex va⟩).1]
      cases (b.descend ⟨pdir, directoryIndex va⟩ false user).1 with
      | none => rfl
      | some pt => rfl

/-- A page whose tables exist is found without creating any. -/
theorem Machine.getPage_found {va : ℕ} {p : Slot} (hfound : (m.getPage va cr3 false false).1 = some p) :
    m.getPage va cr3 true false = (some p, m) := by
  have hdescend (entry : Slot) {C : ℕ} (hC : (m.descend entry false false).1 = some C) :
      m.descend entry true false = (some C, m) ∧ (m.descend entry false false).2 = m := by
    unfold Machine.descend at hC ⊢
    cases hpresent : present (m.load entry) with
    | true =>
      simp only [hpresent, if_true, Option.some.injEq] at hC ⊢
      exact ⟨by rw [hC], trivial⟩
    | false =>
      simp only [hpresent, Bool.false_eq_true, if_false] at hC
      cases hC
  unfold Machine.getPage at hfound ⊢
  dsimp only at hfound ⊢
  cases hpdpt : (m.descend ⟨align cr3, pmlIndex va⟩ false false).1 with
  | none =>
    rw [hpdpt] at hfound
    cases hfound
  | some pdpt =>
    obtain ⟨hnew, hsame⟩ := hdescend _ hpdpt
    rw [hpdpt, hsame] at hfound
    rw [hnew]
    dsimp only at hfound ⊢
    cases hpdir : (m.descend ⟨pdpt, directoryPtrIndex va⟩ false false).1 with
    | none =>
      rw [hpdir] at hfound
      cases hfound
    | some pdir =>
      obtain ⟨hnew, hsame⟩ := hdescend _ hpdir
      rw [hpdir, hsame] at hfound
      rw [hnew]
      dsimp only at hfound ⊢
      cases htable : (m.descend ⟨pdir, directoryIndex va⟩ false false).1 with
      | none =>
        rw [htable] at hfound
        cases hfound
      | some pt =>
        obtain ⟨hnew, -⟩ := hdescend _ htable
        rw [htable] at hfound
        rw [hnew]
        exact congrArg (fun slot => (slot, m)) hfound

/-- Writing back what is there changes nothing. -/
theorem Machine.store_load (a : Machine) (p : Slot) : a.store p (a.load p) = a := by
  unfold Machine.store Machine.load
  rw [Function.update_eq_self, Function.update_eq_self]

/-- With nothing to change, nothing is changed. -/
theorem Machine.NothingToChange.exact (h : m.NothingToChange start amount changeType newValue cr3) :
    m.ChangesExactly start amount changeType newValue cr3 := by
  have hround : ∀ a ∈ Machine.changePages start amount,
      Machine.changePage changeType newValue cr3 (m.lock .tlb, false) a = (m.lock .tlb, false) := by
    intro a ha
    obtain ⟨p, hp, hsame⟩ := h.visited a ha
    have hmemory : (m.lock .tlb).memory = m.memory := rfl
    have hfound : (m.lock .tlb).getPage a cr3 true false = (some p, m.lock .tlb) :=
      Machine.getPage_found ((Machine.getPage_read hmemory a cr3 false).trans hp)
    have hload : (m.lock .tlb).load p = m.load p := rfl
    unfold Machine.changePage
    simp only [Bool.false_eq_true, if_false, hfound, hload]
    cases hpresent : present (m.load p) with
    | true => rfl
    | false =>
      have hkept : Machine.changedEntry (m.load p) changeType newValue = m.load p :=
        hsame.resolve_left fun htrue => by rw [hpresent] at htrue; cases htrue
      rw [hkept, ← hload, Machine.store_load]
      rfl
  have hrun : run (Machine.changePage changeType newValue cr3) (m.lock .tlb, false)
      (Machine.changePages start amount) = (m.lock .tlb, false) := run_fixed hround
  have hcall : m.memChangeType start amount changeType newValue cr3 = (true, (m.lock .tlb).unlock .tlb) := by
    unfold Machine.changePages at hrun
    unfold Machine.memChangeType
    dsimp only
    rw [hrun]
    rfl
  unfold Machine.ChangesExactly
  rw [hcall]
  exact ⟨rfl, fun table index => ⟨fun hin => (h.covered table index hin).symm, fun _ => rfl⟩⟩

/-- The word is the entry of one of the pages. -/
def EntryOf (cr3 : ℕ) (m : Machine) (pages : List ℕ) (table index : ℕ) : Prop :=
  ∃ a ∈ pages, paging.walk m.memory 0 (align cr3) (indices a) = some table ∧ tableIndex a = index

/-- Where the tables exist, the rounds set the bit in the entries that are not present and change no
other word. -/
theorem Growable.changePages_memory (h : Growable roots m) (hcr3 : align cr3 ∈ roots) {pages : List ℕ}
    (hwalks : ∀ a ∈ pages, ∃ pt, paging.walk m.memory 0 (align cr3) (indices a) = some pt) (table index : ℕ) :
    (EntryOf cr3 m pages table index → present (m.memory table index) = false →
        (run (Machine.changePage changeType newValue cr3) (m, false) pages).1.memory table index =
          Machine.changedEntry (m.memory table index) changeType newValue) ∧
      (¬ (EntryOf cr3 m pages table index ∧ present (m.memory table index) = false) →
        (run (Machine.changePage changeType newValue cr3) (m, false) pages).1.memory table index =
          m.memory table index) := by
  induction pages generalizing m with
  | nil => exact ⟨fun ⟨a, ha, _⟩ => absurd ha List.not_mem_nil, fun _ => rfl⟩
  | cons a rest ih =>
    rw [List.forall_mem_cons] at hwalks
    obtain ⟨⟨pt, hwalk⟩, hrest⟩ := hwalks
    have hrun : run (Machine.changePage changeType newValue cr3) (m, false) (a :: rest) =
        run (Machine.changePage changeType newValue cr3)
          (Machine.changePage changeType newValue cr3 (m, false) a) rest := rfl
    have hcons : EntryOf cr3 m (a :: rest) table index ↔
        (pt = table ∧ tableIndex a = index) ∨ EntryOf cr3 m rest table index := by
      unfold EntryOf
      rw [List.exists_mem_cons_iff, hwalk, Option.some.injEq]
    rw [hrun, hcons]
    unfold Machine.changePage
    simp only [Bool.false_eq_true, if_false, Machine.getPage_of_walk hwalk]
    cases hpresent : present (m.load ⟨pt, tableIndex a⟩) with
    | true =>
      obtain ⟨hset, hsame⟩ := ih h hrest
      have hother (habsent : present (m.memory table index) = false) : ¬ (pt = table ∧ tableIndex a = index) := by
        rintro ⟨rfl, rfl⟩
        exact absurd (hpresent.symm.trans habsent) (by decide)
      exact ⟨fun hentry habsent => hset (hentry.resolve_left (hother habsent)) habsent,
        fun hnot => hsame fun hentry => hnot ⟨Or.inr hentry.1, hentry.2⟩⟩
    | false =>
      have hleaf := leafSlot_of_walk hcr3 hwalk
      have hkeeps := h.keepsPresent_store changeType newValue hcr3 hleaf hpresent
      have hsamewalk (b : ℕ) := h.walk_leafStore hleaf (fun _ _ _ _ => rfl)
        (Machine.changedEntry (m.load ⟨pt, tableIndex a⟩) changeType newValue) hcr3 b
      have hsameentry : EntryOf cr3 (m.store ⟨pt, tableIndex a⟩
          (Machine.changedEntry (m.load ⟨pt, tableIndex a⟩) changeType newValue)) rest table index ↔
          EntryOf cr3 m rest table index := by
        unfold EntryOf
        refine exists_congr fun b => and_congr_right fun _ => ?_
        rw [show paging.walk (m.store ⟨pt, tableIndex a⟩ _).memory 0 (align cr3) (indices b) = _ from hsamewalk b]
      obtain ⟨hset, hsame⟩ := ih hkeeps.growable fun b hb => by
        obtain ⟨D, hD⟩ := hrest b hb
        exact ⟨D, hkeeps.walks b D hD⟩
      rw [hsameentry] at hset hsame
      by_cases hhere : pt = table ∧ tableIndex a = index
      · obtain ⟨rfl, rfl⟩ := hhere
        have hword : (m.store ⟨pt, tableIndex a⟩ (Machine.changedEntry (m.load ⟨pt, tableIndex a⟩) changeType
            newValue)).memory pt (tableIndex a) = Machine.changedEntry (m.memory pt (tableIndex a)) changeType newValue :=
          Links.store_self _ _ _ _
        rw [hword, present_changedEntry, changedEntry_idem] at hset
        rw [hword, present_changedEntry] at hsame
        refine ⟨fun _ habsent => ?_, fun hnot => absurd ⟨Or.inl ⟨rfl, rfl⟩, hpresent⟩ hnot⟩
        by_cases hentry : EntryOf cr3 m rest pt (tableIndex a)
        · exact hset hentry habsent
        · exact hsame fun hboth => hentry hboth.1
      · have hword : (m.store ⟨pt, tableIndex a⟩ (Machine.changedEntry (m.load ⟨pt, tableIndex a⟩) changeType
            newValue)).memory table index = m.memory table index :=
          Links.store_of_ne _ _ fun hslot => hhere ⟨hslot.1.symm, hslot.2.symm⟩
        rw [hword] at hset hsame
        exact ⟨fun hentry habsent => hset (hentry.resolve_left hhere) habsent,
          fun hnot => hsame fun hentry => hnot ⟨Or.inr hentry.1, hentry.2⟩⟩

/-- A present entry of the range is one of a leaf table. -/
theorem Machine.InChange.leaf (hcr3 : align cr3 ∈ roots) (hout : Machine.OutsideMirror start amount) {table index : ℕ}
    (h : m.InChange start amount cr3 table index) : table ∈ paging.tables m.memory roots 3 := by
  obtain ⟨-, k, hk, hpage⟩ := h
  rw [m.getPage_false cr3 false (hout k hk)] at hpage
  obtain ⟨pt, hwalk, hslot⟩ := Option.map_eq_some_iff.mp hpage
  have hleaf := (leafSlot_of_walk hcr3 hwalk).1
  rwa [show pt = table from congrArg Slot.table hslot] at hleaf

/-- What the call returns and leaves, by its rounds. -/
theorem Machine.memChangeType_run (m : Machine) (start amount : ℕ) (changeType : Machine.ChangeType) (newValue : Bool)
    (cr3 : ℕ) :
    (m.memChangeType start amount changeType newValue cr3).1 =
        !(run (Machine.changePage changeType newValue cr3) (m.lock .tlb, false) (Machine.changePages start amount)).2 ∧
      (m.memChangeType start amount changeType newValue cr3).2.memory =
        (run (Machine.changePage changeType newValue cr3) (m.lock .tlb, false)
          (Machine.changePages start amount)).1.memory := by
  unfold Machine.memChangeType Machine.changePages
  dsimp only
  generalize run (Machine.changePage changeType newValue cr3) (m.lock .tlb, false)
    (pageRange start (add64 start (pageAlignUp amount))) = st
  obtain ⟨a, stopped⟩ := st
  cases stopped with
  | true => exact ⟨rfl, rfl⟩
  | false => exact ⟨rfl, rfl⟩

/-- The pages gone through are outside the mirror when the range is. -/
theorem Machine.OutsideMirror.pages (h : Machine.OutsideMirror start amount) :
    ∀ a ∈ Machine.changePages start amount, pmlIndex a ≠ 510 := by
  intro a ha
  obtain ⟨k, hk, rfl⟩ := mem_changePages ha
  exact h k hk

/-- Where the call has exactly its effect, it creates no table. -/
theorem Machine.ChangesExactly.walks (hexact : m.ChangesExactly start amount changeType newValue cr3)
    (h : Growable roots m) (hcr3 : align cr3 ∈ roots) (hout : Machine.OutsideMirror start amount) :
    ∀ a ∈ Machine.changePages start amount, ∃ pt, paging.walk m.memory 0 (align cr3) (indices a) = some pt := by
  obtain ⟨hreturns, hwords⟩ := hexact
  obtain ⟨hvalue, hmemory⟩ := m.memChangeType_run start amount changeType newValue cr3
  have hlocked : Growable roots (m.lock .tlb) := h.grow_same rfl rfl
  obtain ⟨-, hafter⟩ := hlocked.changePages changeType newValue hcr3 hout.pages
  have hgoes : (run (Machine.changePage changeType newValue cr3) (m.lock .tlb, false)
      (Machine.changePages start amount)).2 = false := by
    rw [hvalue] at hreturns
    simpa using hreturns
  rw [← hmemory] at hafter
  intro a ha
  obtain ⟨pt, hpt⟩ := hafter hgoes a ha
  refine ⟨pt, (Eq.symm ?_).trans hpt⟩
  refine Links.walk_congr (show align cr3 ∈ paging.tables m.memory roots 0 from hcr3) (indices_mem a)
    fun k _ hk T hT i _ => ?_
  -- a word of an upper table is no leaf entry, so it is not to be changed
  refine congrArg (paging.child k i) ((hwords T i).2 fun hin => ?_)
  have hk3 : k < 3 := by simpa [indices] using hk
  have hlevel := h.leveled k (Nat.lt_succ_of_lt hk3) 3 (by decide) T hT (hin.leaf hcr3 hout)
  omega

/-- Where the call has exactly its effect, there was nothing to change. -/
theorem Machine.ChangesExactly.nothing (hexact : m.ChangesExactly start amount changeType newValue cr3)
    (h : Growable roots m) (hcr3 : align cr3 ∈ roots) (hout : Machine.OutsideMirror start amount) :
    m.NothingToChange start amount changeType newValue cr3 := by
  have hwalks := hexact.walks h hcr3 hout
  obtain ⟨-, hwords⟩ := hexact
  obtain ⟨-, hmemory⟩ := m.memChangeType_run start amount changeType newValue cr3
  have hlocked : Growable roots (m.lock .tlb) := h.grow_same rfl rfl
  have hrounds (table index : ℕ) :
      (EntryOf cr3 m (Machine.changePages start amount) table index → present (m.memory table index) = false →
        (m.memChangeType start amount changeType newValue cr3).2.memory table index =
          Machine.changedEntry (m.memory table index) changeType newValue) ∧
      (¬ (EntryOf cr3 m (Machine.changePages start amount) table index ∧ present (m.memory table index) = false) →
        (m.memChangeType start amount changeType newValue cr3).2.memory table index = m.memory table index) := by
    rw [hmemory]
    exact hlocked.changePages_memory hcr3 hwalks table index
  refine ⟨fun table index hin => ?_, fun a ha => ?_⟩
  · rw [← (hwords table index).1 hin]
    refine (hrounds table index).2 fun hentry => ?_
    rw [hin.1] at hentry
    cases hentry.2
  · obtain ⟨pt, hpt⟩ := hwalks a ha
    refine ⟨⟨pt, tableIndex a⟩, by rw [Machine.getPage_of_walk hpt], ?_⟩
    cases hpresent : present (m.load ⟨pt, tableIndex a⟩) with
    | true => exact Or.inl rfl
    | false =>
      right
      have hout' : ¬ m.InChange start amount cr3 pt (tableIndex a) := fun hin =>
        absurd (hpresent.symm.trans hin.1) (by decide)
      exact ((hrounds pt (tableIndex a)).1 ⟨a, ha, hpt, rfl⟩ hpresent).symm.trans ((hwords pt (tableIndex a)).2 hout')

end Exact

end Cthulhu
