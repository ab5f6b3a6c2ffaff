import Cthulhu.Memory.ReferenceRuns
import Cthulhu.Memory.Unmap

/-!
# Unmapping a range

`deallocate` frees exactly what became unused, for every range that ends below the last page of
the address space. A range that takes in the last page is left as it is: its rounded end is zero.
-/

namespace Cthulhu

open Lib

/-- The pages of a range, rounded to whole pages. -/
def rangePages (start amount : ℕ) : List ℕ := pageRange (align start) (start + amount)

/-- No leaf entry in use has a bit above its address, the execute-disable bit included. -/
def LowLeaves (roots : Finset ℕ) (m : Machine) : Prop :=
  ∀ T ∈ paging.tables m.memory roots 3, ∀ i < 512, present (m.memory T i) = true → m.memory T i < 2 ^ 62

/-- What giving back the pages has to do. Addresses are in the same page when they agree on bits 12
to 47. A table goes back to the pool exactly when this call cleared its last entries. -/
structure Unmapped (roots : Finset ℕ) (cr3 : ℕ) (pages : List ℕ) (m m' : Machine) : Prop where
  outside : ∀ root, align root ∈ roots → ∀ va, pmlIndex va ≠ 510 →
    (align root = align cr3 → ∀ a ∈ pages, a / 2 ^ 12 % 2 ^ 36 ≠ va / 2 ^ 12 % 2 ^ 36) →
      m'.pageEntry va root = m.pageEntry va root
  inside : ∀ a ∈ pages, present (m.pageEntry a cr3) = true → m'.pageEntry a cr3 = 0
  tables : ∀ l < 3, ∀ T ∈ paging.tables m.memory roots (l + 1), IsFrame m.framePool T →
    (T ∈ freeFrames m'.framePool ↔ Emptied roots cr3 (· ∈ pages) m m' (l + 1) T)
  dangling : ∀ f ∈ freeFrames m'.framePool, references m'.memory roots f = 0

section Walks

variable {roots : Finset ℕ} {cr3 : ℕ} {pages : ℕ → Prop} {pending : Option ℕ} {m m' : Machine}

/-- Below a table that is gone every table is gone. -/
theorem Pruned.gone_below (h : Pruned roots cr3 pages pending m m') {l C D : ℕ} {path : List ℕ}
    (hC : C ∈ paging.tables m.memory roots l) (hgone : C ∉ paging.tables m'.memory roots l)
    (hpath : ∀ i ∈ path, i ∈ paging.slots) (hlen : l + path.length ≤ 3)
    (hwalk : paging.walk m.memory l C path = some D) : D ∉ paging.tables m'.memory roots (l + path.length) := by
  induction path generalizing l C with
  | nil =>
    obtain rfl : C = D := Option.some.inj hwalk
    exact hgone
  | cons i path ih =>
    rw [List.forall_mem_cons] at hpath
    rw [List.length_cons] at hlen
    cases hchild : paging.child l i (m.memory C i) with
    | none =>
      rw [Links.walk_cons_none path hchild] at hwalk
      exact absurd hwalk (by simp)
    | some C' =>
      rw [Links.walk_cons_some path hchild] at hwalk
      obtain ⟨hpresent, halign⟩ := present_align_of_child (by omega) hchild
      have hemptied := (h.dropped l (by omega) C hC hgone).1
      have hwiped := (hemptied.2 i (Finset.mem_range.mp hpath.1) (ne_zero_of_present hpresent)).2
      rw [if_neg (by omega), halign] at hwiped
      have hgone' : C' ∉ paging.tables m'.memory roots (l + 1) :=
        fun hmem => hwiped ⟨l + 1, show l + 1 < 4 by omega, hmem⟩
      have hdeep := ih (Links.mem_tables_succ.mpr ⟨C, hC, i, hpath.1, hchild⟩) hgone' hpath.2 (by omega) hwalk
      rwa [Nat.add_assoc, Nat.add_comm 1] at hdeep

/-- A walk to a table that is still there is still there. -/
theorem Pruned.walk_kept (h : Pruned roots cr3 pages pending m m') {l T D : ℕ} {path : List ℕ}
    (hT : T ∈ paging.tables m'.memory roots l) (hpath : ∀ i ∈ path, i ∈ paging.slots) (hlen : l + path.length ≤ 3)
    (hwalk : paging.walk m.memory l T path = some D) (hD : D ∈ paging.tables m'.memory roots (l + path.length)) :
    paging.walk m'.memory l T path = some D := by
  induction path generalizing l T with
  | nil => exact hwalk
  | cons i path ih =>
    rw [List.forall_mem_cons] at hpath
    rw [List.length_cons] at hlen hD
    cases hchild : paging.child l i (m.memory T i) with
    | none =>
      rw [Links.walk_cons_none path hchild] at hwalk
      exact absurd hwalk (by simp)
    | some C =>
      rw [Links.walk_cons_some path hchild] at hwalk
      have hD' : D ∈ paging.tables m'.memory roots (l + 1 + path.length) := by
        rwa [Nat.add_assoc, Nat.add_comm 1]
      have hCm : C ∈ paging.tables m.memory roots (l + 1) :=
        Links.mem_tables_succ.mpr ⟨T, h.sub l (by omega) hT, i, hpath.1, hchild⟩
      have hC : C ∈ paging.tables m'.memory roots (l + 1) := by
        by_contra hgone
        exact h.gone_below hCm hgone hpath.2 (by omega) hwalk hD'
      have hword : m'.memory T i = m.memory T i := by
        refine (h.words l (by omega) T hT i (Finset.mem_range.mp hpath.1)).resolve_right fun hzero => ?_
        have hwiped := hzero.2.2
        rw [if_neg (by omega), (present_align_of_child (by omega) hchild).2] at hwiped
        exact hwiped ⟨l + 1, show l + 1 < 4 by omega, hC⟩
      rw [Links.walk_cons_some path (by rw [hword, hchild])]
      exact ih hC hpath.2 (by omega) hwalk hD'

/-- The entry seen at an address is as it was, or was cleared on purpose. -/
theorem Pruned.leafEntry_cases (h : Pruned roots cr3 pages pending m m') {root : ℕ} (hroot : align root ∈ roots)
    (va : ℕ) : leafEntry m'.memory root va = leafEntry m.memory root va ∨
      leafEntry m'.memory root va = 0 ∧ ∃ pt, paging.walk m.memory 0 (align root) (indices va) = some pt ∧
        Wiped roots cr3 pages m m' 3 pt (tableIndex va) := by
  unfold leafEntry
  cases hwalk' : paging.walk m'.memory 0 (align root) (indices va) with
  | some pt =>
    have hT : pt ∈ paging.tables m'.memory roots 3 :=
      Links.walk_mem (show align root ∈ paging.tables m'.memory roots 0 from hroot) (indices_mem va) hwalk'
    rw [h.walk_eq hroot hwalk']
    exact (h.words 3 (by decide) pt hT _ (tableIndex_lt va)).imp_right fun hzero => ⟨hzero.1, pt, rfl, hzero.2⟩
  | none =>
    cases hwalk : paging.walk m.memory 0 (align root) (indices va) with
    | none => exact Or.inl rfl
    | some pt =>
      have hT : pt ∈ paging.tables m.memory roots 3 :=
        Links.walk_mem (show align root ∈ paging.tables m.memory roots 0 from hroot) (indices_mem va) hwalk
      have hgone : pt ∉ paging.tables m'.memory roots 3 := by
        intro hkept
        have hsome := h.walk_kept (show align root ∈ paging.tables m'.memory roots 0 from hroot) (indices_mem va)
          (Nat.le_refl 3) hwalk hkept
        rw [hwalk'] at hsome
        exact absurd hsome (by simp)
      by_cases hzero : m.memory pt (tableIndex va) = 0
      · exact Or.inl hzero.symm
      · exact Or.inr ⟨rfl, pt, rfl, (h.dropped 3 (by decide) pt hT hgone).1.2 _ (tableIndex_lt va) hzero⟩

/-- An entry without high bits stays so, and may be cleared. -/
theorem Pruned.releaseSafe (h : Pruned roots cr3 pages pending m m') (hcr3 : align cr3 ∈ roots) {va : ℕ}
    (hva : pmlIndex va ≠ 510)
    (hlow : present (leafEntry m.memory cr3 va) = true → leafEntry m.memory cr3 va < 2 ^ 62) :
    ReleaseSafe cr3 m' va := by
  intro hpresent hhigh
  rw [m'.pageEntry_eq cr3 hva] at hpresent hhigh
  rcases h.leafEntry_cases hcr3 va with heq | ⟨heq, -⟩
  · rw [heq] at hpresent hhigh
    exact absurd (hlow hpresent) (Nat.not_lt.mpr hhigh)
  · rw [heq] at hhigh
    exact absurd hhigh (by decide)

/-- With no high bits in leaf tables, no entry seen has any. -/
theorem LowLeaves.leafEntry_lt (hlow : LowLeaves roots m) (hcr3 : align cr3 ∈ roots) {va : ℕ}
    (hpresent : present (leafEntry m.memory cr3 va) = true) : leafEntry m.memory cr3 va < 2 ^ 62 := by
  cases hwalk : paging.walk m.memory 0 (align cr3) (indices va) with
  | none =>
    rw [leafEntry_of_none hwalk]
    decide
  | some pt =>
    rw [leafEntry_of_some hwalk] at hpresent ⊢
    have hT : pt ∈ paging.tables m.memory roots 3 :=
      Links.walk_mem (show align cr3 ∈ paging.tables m.memory roots 0 from hcr3) (indices_mem va) hwalk
    exact hlow pt hT _ (tableIndex_lt va) hpresent

end Walks

section Runs

variable {roots : Finset ℕ} {cr3 : ℕ} {pages : ℕ → Prop} {m m' : Machine}

/-- One round of `deallocate` removes its page. -/
theorem Pruned.removalPage (h : Pruned roots cr3 pages none m m') (hcr3 : align cr3 ∈ roots) {va : ℕ}
    (hva : pmlIndex va ≠ 510)
    (hlow : present (leafEntry m.memory cr3 va) = true → leafEntry m.memory cr3 va < 2 ^ 62) :
    Removal Eq roots cr3 va (m'.lock .frame)
      ((m'.lock .frame).deallocateFrame ((m'.lock .frame).getPage va cr3 false false).1 va cr3) := by
  have hlocked : Pruned roots cr3 pages none m (m'.lock .frame) := h.same rfl rfl
  exact (hlocked.counted.deallocateFrame hcr3 hva (hlocked.releaseSafe hcr3 hva hlow)).2

/-- One round of `deallocate`. -/
theorem Pruned.deallocatePage (h : Pruned roots cr3 pages none m m')
    (hone : ∀ T, paging.IsTable m.memory roots T → references m.memory roots T = 1) (hcr3 : align cr3 ∈ roots)
    {va : ℕ} (hva : pmlIndex va ≠ 510)
    (hlow : present (leafEntry m.memory cr3 va) = true → leafEntry m.memory cr3 va < 2 ^ 62) :
    Pruned roots cr3 (fun a => pages a ∨ a = va) none m (Machine.deallocatePage cr3 m' va) := by
  have hlocked : Pruned roots cr3 pages none m (m'.lock .frame) := h.same rfl rfl
  exact (hlocked.removal hone hcr3 (h.removalPage hcr3 hva hlow)).same rfl rfl

/-- All rounds of `deallocate`. -/
theorem Pruned.run (h : Pruned roots cr3 pages none m m')
    (hone : ∀ T, paging.IsTable m.memory roots T → references m.memory roots T = 1) (hcr3 : align cr3 ∈ roots)
    (vas : List ℕ) (hout : ∀ va ∈ vas, pmlIndex va ≠ 510)
    (hlow : ∀ va ∈ vas, present (leafEntry m.memory cr3 va) = true → leafEntry m.memory cr3 va < 2 ^ 62) :
    Pruned roots cr3 (fun a => pages a ∨ a ∈ vas) none m (Lib.run (Machine.deallocatePage cr3) m' vas) := by
  induction vas generalizing pages m' with
  | nil => simpa [Lib.run] using h
  | cons va vas ih =>
    rw [List.forall_mem_cons] at hout hlow
    have hrest := ih (h.deallocatePage hone hcr3 hout.1 hlow.1) hout.2 hlow.2
    simp only [List.mem_cons, ← or_assoc]
    exact hrest

/-- A comparison with no table left to look at says what was unmapped. -/
theorem Pruned.unmapped {vas : List ℕ} (h : Pruned roots cr3 (· ∈ vas) none m m') (hone : OneReference roots m)
    (hcr3 : align cr3 ∈ roots) (hout : ∀ va ∈ vas, pmlIndex va ≠ 510) : Unmapped roots cr3 vas m m' where
  outside := by
    intro root hroot va hva hoff
    rw [m.pageEntry_eq root hva, m'.pageEntry_eq root hva]
    refine (h.leafEntry_cases hroot va).resolve_right ?_
    rintro ⟨-, pt, hwalk, -, hwiped⟩
    rw [if_pos rfl] at hwiped
    obtain ⟨a, ha, hwalk', hindex⟩ := hwiped
    obtain ⟨hsame, hindices⟩ := hone.walk_place hcr3 hroot hwalk' hwalk
    exact hoff hsame.symm a ha ((indices_eq_iff va a).mp ⟨hindices, hindex⟩)
  inside := by
    intro a ha hpresent
    rw [m.pageEntry_eq cr3 (hout a ha)] at hpresent
    rw [m'.pageEntry_eq cr3 (hout a ha)]
    rcases h.leafEntry_cases hcr3 a with heq | ⟨hzero, -⟩
    · have hcleared := h.cleared a ha
      rw [heq, hpresent] at hcleared
      exact absurd hcleared (by decide)
    · exact hzero
  tables := by
    intro l hl T hT hframe
    rw [h.counted.free_iff ((isFrame_congr h.layout T).mpr hframe)]
    by_cases hkept : T ∈ paging.tables m'.memory roots (l + 1)
    · have hcount : references m'.memory roots T ≠ 0 :=
        fun hzero => not_isTable_of_references hzero ⟨l + 1, show l + 1 < 4 by omega, hkept⟩
      refine ⟨fun hzero => absurd hzero hcount, fun hemptied => ?_⟩
      obtain ⟨i, hi, hne⟩ := h.kept l hl T hkept (by simp) hemptied.1
      have hword := h.word_eq (show l + 1 < 4 by omega) hkept hi hne
      obtain ⟨hpresent, hwiped⟩ := hemptied.2 i hi (by rw [← hword]; exact hne)
      rw [← hword] at hpresent hwiped
      split at hwiped
      next hleaf =>
        obtain ⟨va, hva, hwalk, rfl⟩ := hwiped
        obtain rfl : l = 2 := by omega
        have hwalk' := h.walk_kept (show align cr3 ∈ paging.tables m'.memory roots 0 from hcr3) (indices_mem va)
          (Nat.le_refl 3) hwalk hkept
        have hcleared := h.cleared va hva
        rw [leafEntry_of_some hwalk'] at hcleared
        exact absurd (hcleared.symm.trans hpresent) (by decide)
      next hupper =>
        refine absurd ⟨l + 2, show l + 2 < 4 by omega, ?_⟩ hwiped
        exact Links.mem_tables_succ.mpr ⟨T, hkept, i, Finset.mem_range.mpr hi,
          child_upper (by omega) (by omega) hpresent⟩
    · obtain ⟨hemptied, hzero⟩ := h.dropped (l + 1) (by omega) T hT hkept
      exact ⟨fun _ => hemptied, fun _ => hzero⟩
  dangling := h.counted.growable.unreferenced

end Runs

section Range

variable {roots : Finset ℕ} {cr3 start amount : ℕ} {m : Machine}

/-- Below the last page of the address space `deallocate` goes through the pages of the range. -/
theorem deallocatePages_range (hend : start + amount ≤ 2 ^ 64 - 0x1000) :
    Machine.deallocatePages start amount = rangePages start amount ∧
      (¬ align start < Machine.deallocateEnd start amount → rangePages start amount = []) := by
  have hstart := align_le start
  have haligned := align_mod start
  have hrounded : Machine.deallocateEnd start amount =
      if (start + amount) % 0x1000 = 0 then start + amount else align (start + amount) + 0x1000 := by
    unfold Machine.deallocateEnd
    have hamount : (if start % 0x1000 ≠ 0 then add64 amount (start - align start) else amount) =
        amount + (start - align start) := by
      split
      · exact add64_of_lt (by omega)
      · rw [align_of_mod (by omega)]
        omega
    have hbound := align_le (start + amount)
    dsimp only
    rw [hamount, add64_of_lt (by omega), show align start + (amount + (start - align start)) = start + amount by omega]
    by_cases hmod : (start + amount) % 0x1000 = 0
    · rw [if_neg (not_not.mpr hmod), if_pos hmod]
    · rw [if_pos hmod, if_neg hmod, add64_of_lt (by omega)]
  have hcount : (Machine.deallocateEnd start amount - align start + 0xFFF) / 0x1000 =
      (start + amount - align start + 0xFFF) / 0x1000 := by
    rw [hrounded]
    unfold align at *
    split <;> omega
  unfold Machine.deallocatePages rangePages pageRange
  rw [hcount]
  refine ⟨rfl, fun hempty => ?_⟩
  have hzero : (start + amount - align start + 0xFFF) / 0x1000 = 0 := by
    rw [← hcount]
    omega
  rw [hzero]
  rfl

/-- A range that takes in the last page of the address space has a rounded end of zero. -/
theorem deallocateEnd_wrap (hend : 2 ^ 64 - 0x1000 < start + amount) (hrange : start + amount ≤ 2 ^ 64) :
    Machine.deallocateEnd start amount = 0 := by
  have hstart := align_le start
  have haligned := align_mod start
  unfold Machine.deallocateEnd
  have hsum : add64 (align start) (if start % 0x1000 ≠ 0 then add64 amount (start - align start) else amount) =
      (start + amount) % 2 ^ 64 := by
    unfold add64
    split
    · rw [Nat.add_mod_mod, show align start + (amount + (start - align start)) = start + amount by omega]
    · rw [align_of_mod (by omega)]
  dsimp only
  rw [hsum]
  rcases Nat.lt_or_eq_of_le hrange with hlt | heq
  · have htop : align (start + amount) = 2 ^ 64 - 0x1000 := by
      unfold align
      omega
    rw [Nat.mod_eq_of_lt hlt, if_pos (by omega), htop]
    decide
  · rw [heq]
    decide

/-- The unmapping theorem: `deallocate` frees exactly what became unused, unless the range takes in
the last page of the address space and something is mapped in it. -/
theorem deallocate_exact (m : Machine) (roots : Finset ℕ) (cr3 start amount : ℕ) (hcounted : Counted roots m)
    (hone : OneReference roots m) (hlow : LowLeaves roots m) (hcr3 : align cr3 ∈ roots)
    (hrange : start + amount ≤ 2 ^ 64) (hout : ∀ a ∈ rangePages start amount, pmlIndex a ≠ 510) :
    Unmapped roots cr3 (rangePages start amount) m (m.deallocate start amount cr3) ↔
      start + amount ≤ 2 ^ 64 - 0x1000 ∨ ∀ a ∈ rangePages start amount, present (m.pageEntry a cr3) = false := by
  have hstart : Pruned roots cr3 (fun _ => False) none m m := Pruned.refl hcounted
  by_cases hend : start + amount ≤ 2 ^ 64 - 0x1000
  · refine ⟨fun _ => Or.inl hend, fun _ => ?_⟩
    obtain ⟨hpages, hnone⟩ := deallocatePages_range hend
    have hlocked : Pruned roots cr3 (fun _ => False) none m (m.lock .tlb) := hstart.same rfl rfl
    have hrun := hlocked.run hone.tables hcr3 (rangePages start amount) hout
      fun _ _ => hlow.leafEntry_lt hcr3
    simp only [false_or] at hrun
    unfold Machine.deallocate
    rw [hpages]
    split
    next =>
      have hdone : Pruned roots cr3 (· ∈ rangePages start amount) none m
          ((run (Machine.deallocatePage cr3) (m.lock .tlb) (rangePages start amount)).unlock .tlb) :=
        hrun.same rfl rfl
      exact hdone.unmapped hone hcr3 hout
    next hempty =>
      rw [hnone hempty] at hrun hout ⊢
      have hdone : Pruned roots cr3 (· ∈ ([] : List ℕ)) none m m := hrun.same rfl rfl
      exact hdone.unmapped hone hcr3 hout
  · have hsame : m.deallocate start amount cr3 = m := by
      unfold Machine.deallocate
      rw [deallocateEnd_wrap (by omega) hrange, if_neg (Nat.not_lt_zero _)]
    rw [hsame]
    constructor
    · intro hunmapped
      refine Or.inr fun a ha => ?_
      by_contra hpresent
      have hzero := hunmapped.inside a ha (by simpa using hpresent)
      rw [hzero] at hpresent
      exact hpresent (by decide)
    · rintro (hbelow | hnone)
      · exact absurd hbelow hend
      · have hdone : Pruned roots cr3 (· ∈ rangePages start amount) none m m := by
          refine hstart.widen (fun _ hva => hva.elim) fun va hva => ?_
          rw [← m.pageEntry_eq cr3 (hout va hva)]
          exact hnone va hva
        exact hdone.unmapped hone hcr3 hout

end Range

/-- The last page of the address space. -/
def lastPage : ℕ := 0xFFFFFFFFFFFFF000

/-- The blank machine with a frame mapped at the last page. -/
def lastPageMachine : Machine :=
  let r := blankMachine.getPage lastPage 0x100000 true false
  match r.1 with
  | none => r.2
  | some p => (r.2.allocateFrame p true false false).2

/-- Its use counts are right and every table has one reference. -/
theorem lastPageMachine_counted : Counted {0x100000} lastPageMachine ∧ OneReference {0x100000} lastPageMachine := by
  have hcounted : Counted {0x100000} blankMachine := blankSpaces_booted.counted
  have hroot : align 0x100000 ∈ ({0x100000} : Finset ℕ) := by decide
  have hbelow : pmlIndex lastPage ≠ 510 := by decide
  obtain ⟨hwalked, hgrown, hslot⟩ := hcounted.getPage hroot hbelow false
  have hone := hgrown.oneReference blankMachine_oneReference (List.cons_ne_nil _ _)
  unfold lastPageMachine
  dsimp only
  split
  next => exact ⟨hwalked, hone⟩
  next p hp =>
    exact ⟨hwalked.allocateFrame (hslot p hp).1 true false false,
      hone.allocateFrame hwalked.growable hwalked.below (hslot p hp).1 true false false⟩

/-- Its leaf entries have no high bits. -/
theorem lastPageMachine_low : LowLeaves {0x100000} lastPageMachine := by
  unfold LowLeaves
  decide +kernel

/-- The unmapping theorem for one page of the machine. -/
theorem deallocate_exact_page :
    Unmapped {0x100000} 0x100000 (rangePages 0x400000 0x1000) lastPageMachine
        (lastPageMachine.deallocate 0x400000 0x1000 0x100000) ↔
      0x400000 + 0x1000 ≤ 2 ^ 64 - 0x1000 ∨
        ∀ a ∈ rangePages 0x400000 0x1000, present (lastPageMachine.pageEntry a 0x100000) = false :=
  deallocate_exact lastPageMachine {0x100000} 0x100000 0x400000 0x1000 lastPageMachine_counted.1
    lastPageMachine_counted.2 lastPageMachine_low (by decide) (by decide +kernel) (by decide +kernel)

/-- The last page is mapped. -/
theorem lastPageMachine_entry : lastPageMachine.pageEntry lastPage 0x100000 = 0x204003 := by
  have hroot : lastPageMachine.memory (align 0x100000) 511 = 0x201003 := by decide +kernel
  have hpdpt : lastPageMachine.memory 0x201000 511 = 0x202003 := by decide +kernel
  have hpdir : lastPageMachine.memory 0x202000 511 = 0x203003 := by decide +kernel
  have hindices : indices lastPage = [511, 511, 511] := by decide +kernel
  have hwalk : paging.walk lastPageMachine.memory 0 (align 0x100000) (indices lastPage) = some 0x203000 := by
    rw [hindices, Links.walk_cons_some _ (C := 0x201000) (by rw [hroot]; decide),
      Links.walk_cons_some _ (C := 0x202000) (by rw [hpdpt]; decide),
      Links.walk_cons_some _ (C := 0x203000) (by rw [hpdir]; decide)]
    rfl
  rw [Machine.pageEntry_eq _ _ (by decide +kernel), leafEntry_of_some hwalk]
  decide +kernel

/-- Giving back the last page leaves it mapped. -/
theorem deallocate_last_page :
    Counted {0x100000} lastPageMachine ∧ OneReference {0x100000} lastPageMachine ∧
      LowLeaves {0x100000} lastPageMachine ∧ (∀ a ∈ rangePages lastPage 0x1000, pmlIndex a ≠ 510) ∧
      ¬ Unmapped {0x100000} 0x100000 (rangePages lastPage 0x1000) lastPageMachine
        (lastPageMachine.deallocate lastPage 0x1000 0x100000) := by
  refine ⟨lastPageMachine_counted.1, lastPageMachine_counted.2, lastPageMachine_low, by decide +kernel,
    fun hunmapped => ?_⟩
  have hsame : lastPageMachine.deallocate lastPage 0x1000 0x100000 = lastPageMachine := by
    unfold Machine.deallocate
    rw [deallocateEnd_wrap (by decide) (by decide), if_neg (Nat.not_lt_zero _)]
  rw [hsame] at hunmapped
  have hzero := hunmapped.inside lastPage (by decide +kernel) (by rw [lastPageMachine_entry]; decide)
  rw [lastPageMachine_entry] at hzero
  exact absurd hzero (by decide)

end Cthulhu
