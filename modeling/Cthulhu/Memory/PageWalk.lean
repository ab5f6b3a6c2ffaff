import Cthulhu.Memory.GetPage
import Cthulhu.Memory.PoolRuns

/-!
# The page-table walk

The allocating walk returns the slot that every later walk finds for the same page, and no
other page. It keeps the invariant that every table has exactly one reference and every free
frame none, also when the pool runs out midway, and it changes no translation.
-/

namespace Cthulhu

open Lib

section Read

variable (m : Machine)

/-- A reading level follows a present entry and changes nothing. -/
theorem Machine.descend_false (entry : Slot) (user : Bool) :
    m.descend entry false user = (if present (m.load entry) then some (align (m.load entry)) else none, m) := by
  unfold Machine.descend
  split <;> rfl

/-- One reading level outside the mirror is one step of the walk. -/
theorem Machine.descend_false_child {l : ℕ} (entry : Slot) (user : Bool) (hl : l < 3)
    (hmirror : ¬ (l = 0 ∧ entry.index = 510)) :
    m.descend entry false user = (paging.child l entry.index (m.load entry), m) := by
  rw [m.descend_false]
  cases hpresent : present (m.load entry) with
  | true => rw [child_upper hl hmirror hpresent, if_pos rfl]
  | false => rw [child_of_not_present hpresent, if_neg (by simp)]

/-- A reading walk outside the mirror finds the leaf table of the address. -/
theorem Machine.getPage_false {va : ℕ} (cr3 : ℕ) (user : Bool) (hva : pmlIndex va ≠ 510) :
    m.getPage va cr3 false user =
      ((paging.walk m.memory 0 (align cr3) (indices va)).map fun pt => ⟨pt, tableIndex va⟩, m) := by
  unfold Machine.getPage indices
  rw [m.descend_false_child (l := 0) _ user (by decide) fun h => hva h.2]
  cases hpdpt : paging.child 0 (pmlIndex va) (m.load ⟨align cr3, pmlIndex va⟩) with
  | none => rw [Links.walk_cons_none _ hpdpt]; rfl
  | some pdpt =>
    rw [Links.walk_cons_some _ hpdpt]
    simp only
    rw [m.descend_false_child (l := 1) _ user (by decide) fun h => absurd h.1 (by decide)]
    cases hpdir : paging.child 1 (directoryPtrIndex va) (m.load ⟨pdpt, directoryPtrIndex va⟩) with
    | none => rw [Links.walk_cons_none _ hpdir]; rfl
    | some pdir =>
      rw [Links.walk_cons_some _ hpdir]
      simp only
      rw [m.descend_false_child (l := 2) _ user (by decide) fun h => absurd h.1 (by decide)]
      cases hpt : paging.child 2 (directoryIndex va) (m.load ⟨pdir, directoryIndex va⟩) with
      | none => rw [Links.walk_cons_none _ hpt]; rfl
      | some pt => rw [Links.walk_cons_some _ hpt]; rfl

/-- The entry a reading walk sees for an address; zero where it returns `NULL`. -/
def Machine.pageEntry (va cr3 : ℕ) : ℕ :=
  match (m.getPage va cr3 false false).1 with
  | none => 0
  | some p => m.load p

/-- Outside the mirror, the entry seen is the one the address is translated by. -/
theorem Machine.pageEntry_eq {va : ℕ} (cr3 : ℕ) (hva : pmlIndex va ≠ 510) :
    m.pageEntry va cr3 = leafEntry m.memory cr3 va := by
  unfold Machine.pageEntry leafEntry
  rw [m.getPage_false cr3 false hva]
  cases paging.walk m.memory 0 (align cr3) (indices va) <;> rfl

end Read

/-- The walk depends on the page of an address only. -/
theorem Machine.getPage_congr {m : Machine} {va vb : ℕ} (h : va / 0x1000 = vb / 0x1000) (cr3 : ℕ) (allocateNew user : Bool) :
    m.getPage va cr3 allocateNew user = m.getPage vb cr3 allocateNew user := by
  have hpml : pmlIndex va = pmlIndex vb := by unfold pmlIndex; omega
  have hpdpt : directoryPtrIndex va = directoryPtrIndex vb := by unfold directoryPtrIndex; omega
  have hpdir : directoryIndex va = directoryIndex vb := by unfold directoryIndex; omega
  have hpt : tableIndex va = tableIndex vb := by unfold tableIndex; omega
  unfold Machine.getPage
  rw [hpml, hpdpt, hpdir, hpt]

/-- Addresses have the same table indices exactly when they are in the same page. -/
theorem indices_eq_iff (va va' : ℕ) :
    indices va' = indices va ∧ tableIndex va' = tableIndex va ↔
      va' / 2 ^ 12 % 2 ^ 36 = va / 2 ^ 12 % 2 ^ 36 := by
  simp only [indices, List.cons.injEq, and_true, pmlIndex, directoryPtrIndex, directoryIndex, tableIndex]
  have hsplit (x : ℕ) : x / 2 ^ 39 = x / 2 ^ 12 / 2 ^ 27 ∧ x / 2 ^ 30 = x / 2 ^ 12 / 2 ^ 18 ∧
      x / 2 ^ 21 = x / 2 ^ 12 / 2 ^ 9 := by
    refine ⟨?_, ?_, ?_⟩ <;> rw [Nat.div_div_eq_div_mul, ← Nat.pow_add]
  rw [(hsplit va).1, (hsplit va).2.1, (hsplit va).2.2, (hsplit va').1, (hsplit va').2.1, (hsplit va').2.2]
  generalize va / 2 ^ 12 = x
  generalize va' / 2 ^ 12 = y
  omega

section Allocate

variable {roots : Finset ℕ} {m : Machine}

/-- The indices of an address down to the next level. -/
theorem indices_take (va : ℕ) {l : ℕ} (hl : l < 3) :
    (indices va).take (l + 1) = (indices va).take l ++ [(indices va).getD l 0] ∧
      (indices va).getD l 0 ∈ indices va := by
  match l, hl with
  | 0, _ => simp [indices]
  | 1, _ => simp [indices]
  | 2, _ => simp [indices]

/-- The indices of an address down to a level are as many as the levels passed. -/
theorem length_indices_take (va : ℕ) {l : ℕ} (hl : l ≤ 3) : ((indices va).take l).length = l := by
  rw [List.length_take]
  exact Nat.min_eq_left hl

/-- The walk down to a level ends in a table of that level. -/
theorem walk_indices_mem {va cr3 l T : ℕ} (hcr3 : align cr3 ∈ roots) (hl : l ≤ 3)
    (hwalk : paging.walk m.memory 0 (align cr3) ((indices va).take l) = some T) :
    T ∈ paging.tables m.memory roots l := by
  have hmem := Links.walk_mem (show align cr3 ∈ paging.tables m.memory roots 0 from hcr3)
    (fun i hi => indices_mem va i (List.mem_of_mem_take hi)) hwalk
  rwa [Nat.zero_add, length_indices_take va hl] at hmem

/-- The place a walk reads next is a word of a table of its level. -/
theorem indices_slot {va cr3 l T : ℕ} (hcr3 : align cr3 ∈ roots) (hl : l < 3)
    (hwalk : paging.walk m.memory 0 (align cr3) ((indices va).take l) = some T) :
    T ∈ paging.tables m.memory roots l ∧ (indices va).getD l 0 < 512 :=
  ⟨walk_indices_mem hcr3 (by omega) hwalk, Finset.mem_range.mp (indices_mem va _ (indices_take va hl).2)⟩

/-- The walk down to a level of an address is known before the level is passed, and after it the walk
down to the next one. -/
theorem Growable.level (h : Growable roots m) {va cr3 l T : ℕ} (hcr3 : align cr3 ∈ roots) (hva : pmlIndex va ≠ 510)
    (hl : l < 3) (hwalk : paging.walk m.memory 0 (align cr3) ((indices va).take l) = some T) (user : Bool) :
    Descent l ⟨T, (indices va).getD l 0⟩ m (m.descend ⟨T, (indices va).getD l 0⟩ true user) ∧
      Growable roots (m.descend ⟨T, (indices va).getD l 0⟩ true user).2 ∧
      ∀ C, (m.descend ⟨T, (indices va).getD l 0⟩ true user).1 = some C →
        paging.walk (m.descend ⟨T, (indices va).getD l 0⟩ true user).2.memory 0 (align cr3)
          ((indices va).take (l + 1)) = some C := by
  obtain ⟨hnext, -⟩ := indices_take va hl
  have hlen := length_indices_take va (Nat.le_of_lt hl)
  have hpath : ∀ i ∈ (indices va).take l, i ∈ paging.slots := fun i hi => indices_mem va i (List.mem_of_mem_take hi)
  obtain ⟨hT, hi⟩ := indices_slot hcr3 hl hwalk
  have hmirror : ¬ (l = 0 ∧ (indices va).getD l 0 = 510) := by
    rintro ⟨rfl, hindex⟩
    exact hva hindex
  have hdescent := h.descend ⟨T, (indices va).getD l 0⟩ hl hT hmirror user
  obtain ⟨hgrow, hchild⟩ := hdescent.grow hl hT hi
  refine ⟨hdescent, h.grow hgrow, fun C hC => ?_⟩
  have hkeep := Grown.walk_some (.single hgrow) h hcr3 hpath (by omega) hwalk
  rw [hnext, Links.walk_snoc, hkeep, Option.bind_some, hlen, Nat.zero_add]
  exact hchild C hC

/-- The rule for allocating walks: what every level establishes for the next one, or on failure for the
caller, holds when the walk ends. -/
theorem Growable.getPage_levels (h : Growable roots m) {va cr3 : ℕ} (hcr3 : align cr3 ∈ roots) (hva : pmlIndex va ≠ 510)
    (user : Bool) (good : ℕ → ℕ → Machine → Prop) (stuck : Machine → Prop) (hstart : good 0 (align cr3) m)
    (hstep : ∀ l < 3, ∀ T a, Growable roots a →
      paging.walk a.memory 0 (align cr3) ((indices va).take l) = some T → good l T a →
      ((a.descend ⟨T, (indices va).getD l 0⟩ true user).1 = none → stuck (a.descend ⟨T, (indices va).getD l 0⟩ true user).2) ∧
        ∀ C, (a.descend ⟨T, (indices va).getD l 0⟩ true user).1 = some C →
          good (l + 1) C (a.descend ⟨T, (indices va).getD l 0⟩ true user).2) :
    ((m.getPage va cr3 true user).1 = none ∧ stuck (m.getPage va cr3 true user).2) ∨
      ∃ pt, (m.getPage va cr3 true user).1 = some ⟨pt, tableIndex va⟩ ∧ good 3 pt (m.getPage va cr3 true user).2 ∧
        Growable roots (m.getPage va cr3 true user).2 ∧
        paging.walk (m.getPage va cr3 true user).2.memory 0 (align cr3) (indices va) = some pt := by
  have hone (l i : ℕ) (hl : l < 3) (hindex : (indices va).getD l 0 = i) {T : ℕ} {a : Machine} (ha : Growable roots a)
      (hwalk : paging.walk a.memory 0 (align cr3) ((indices va).take l) = some T) (hgood : good l T a) :
      (((a.descend ⟨T, i⟩ true user).1 = none → stuck (a.descend ⟨T, i⟩ true user).2) ∧
        ∀ C, (a.descend ⟨T, i⟩ true user).1 = some C → good (l + 1) C (a.descend ⟨T, i⟩ true user).2) ∧
      Growable roots (a.descend ⟨T, i⟩ true user).2 ∧
      ∀ C, (a.descend ⟨T, i⟩ true user).1 = some C →
        paging.walk (a.descend ⟨T, i⟩ true user).2.memory 0 (align cr3) ((indices va).take (l + 1)) = some C := by
    subst hindex
    exact ⟨hstep l hl T a ha hwalk hgood, (ha.level hcr3 hva hl hwalk user).2⟩
  unfold Machine.getPage
  dsimp only
  obtain ⟨⟨hstuck₀, hgood₀⟩, hgrown₀, hwalk₀⟩ := hone 0 (pmlIndex va) (by decide) rfl h rfl hstart
  generalize m.descend ⟨align cr3, pmlIndex va⟩ true user = r₀ at hstuck₀ hgood₀ hgrown₀ hwalk₀
  obtain ⟨res₀, m₀⟩ := r₀
  cases res₀ with
  | none => exact Or.inl ⟨rfl, hstuck₀ rfl⟩
  | some pdpt =>
  dsimp only
  obtain ⟨⟨hstuck₁, hgood₁⟩, hgrown₁, hwalk₁⟩ :=
    hone 1 (directoryPtrIndex va) (by decide) rfl hgrown₀ (hwalk₀ pdpt rfl) (hgood₀ pdpt rfl)
  dsimp only at hstuck₁ hgood₁ hgrown₁ hwalk₁
  generalize m₀.descend ⟨pdpt, directoryPtrIndex va⟩ true user = r₁ at hstuck₁ hgood₁ hgrown₁ hwalk₁
  obtain ⟨res₁, m₁⟩ := r₁
  cases res₁ with
  | none => exact Or.inl ⟨rfl, hstuck₁ rfl⟩
  | some pdir =>
  dsimp only
  obtain ⟨⟨hstuck₂, hgood₂⟩, hgrown₂, hwalk₂⟩ :=
    hone 2 (directoryIndex va) (by decide) rfl hgrown₁ (hwalk₁ pdir rfl) (hgood₁ pdir rfl)
  dsimp only at hstuck₂ hgood₂ hgrown₂ hwalk₂
  generalize m₁.descend ⟨pdir, directoryIndex va⟩ true user = r₂ at hstuck₂ hgood₂ hgrown₂ hwalk₂
  obtain ⟨res₂, m₂⟩ := r₂
  cases res₂ with
  | none => exact Or.inl ⟨rfl, hstuck₂ rfl⟩
  | some pt => exact Or.inr ⟨pt, rfl, hgood₂ pt rfl, hgrown₂, hwalk₂ pt rfl⟩

/-- The rule for allocating walks, with what a level can do. -/
theorem Growable.getPage_rule (h : Growable roots m) {va cr3 : ℕ} (hcr3 : align cr3 ∈ roots) (hva : pmlIndex va ≠ 510)
    (user : Bool) (good : ℕ → ℕ → Machine → Prop) (stuck : Machine → Prop) (hstart : good 0 (align cr3) m)
    (hstep : ∀ l < 3, ∀ T a r, Growable roots a →
      paging.walk a.memory 0 (align cr3) ((indices va).take l) = some T → good l T a →
      Descent l ⟨T, (indices va).getD l 0⟩ a r →
      (r.1 = none → stuck r.2) ∧ ∀ C, r.1 = some C → good (l + 1) C r.2) :
    ((m.getPage va cr3 true user).1 = none ∧ stuck (m.getPage va cr3 true user).2) ∨
      ∃ pt, (m.getPage va cr3 true user).1 = some ⟨pt, tableIndex va⟩ ∧ good 3 pt (m.getPage va cr3 true user).2 ∧
        Growable roots (m.getPage va cr3 true user).2 ∧
        paging.walk (m.getPage va cr3 true user).2.memory 0 (align cr3) (indices va) = some pt :=
  h.getPage_levels hcr3 hva user good stuck hstart fun l hl T a ha hwalk hgood =>
    hstep l hl T a _ ha hwalk hgood (ha.level hcr3 hva hl hwalk user).1

/-- An allocating walk grows the tables; it fails only with every free stack empty, and otherwise
the address is translated by the slot it returns. -/
theorem Growable.getPage (h : Growable roots m) {va cr3 : ℕ} (hcr3 : align cr3 ∈ roots)
    (hva : pmlIndex va ≠ 510) (user : Bool) :
    Grown roots m (m.getPage va cr3 true user).2 ∧
      (((m.getPage va cr3 true user).1 = none ∧
          ∀ s ∈ (m.getPage va cr3 true user).2.framePool, s.head = none) ∨
        ∃ pt, (m.getPage va cr3 true user).1 = some ⟨pt, tableIndex va⟩ ∧
          paging.walk (m.getPage va cr3 true user).2.memory 0 (align cr3) (indices va) = some pt) := by
  have hrule := h.getPage_rule hcr3 hva user (fun _ _ a => Grown roots m a)
    (fun b => Grown roots m b ∧ ∀ s ∈ b.framePool, s.head = none) .refl fun l hl T a r ha hwalk hgrown hdescent => ?_
  · rcases hrule with ⟨hnone, hgrown, hempty⟩ | ⟨pt, hslot, hgrown, -, hwalk⟩
    · exact ⟨hgrown, Or.inl ⟨hnone, hempty⟩⟩
    · exact ⟨hgrown, Or.inr ⟨pt, hslot, hwalk⟩⟩
  · obtain ⟨hT, hi⟩ := indices_slot hcr3 hl hwalk
    have hnext := hgrown.tail (hdescent.grow hl hT hi).1
    refine ⟨fun hnone => ⟨hnext, ?_⟩, fun _ _ => hnext⟩
    cases hdescent with
    | passed C => exact absurd hnone (by simp)
    | exhausted hold hzero =>
      rcases ha.pool.getFreeFrame with ⟨-, -, hempty⟩ | ⟨-, hhigh, -⟩
      · exact hempty
      · rw [hzero] at hhigh
        exact absurd hhigh (by decide)
    | linked => exact absurd hnone (by simp)

end Allocate

/-- Every table has exactly one reference, an entry or a root register, and no free frame has one. -/
structure OneReference (roots : Finset ℕ) (m : Machine) : Prop where
  pool : PoolInv m.framePool
  tables : ∀ T, paging.IsTable m.memory roots T → references m.memory roots T = 1
  free : ∀ f ∈ freeFrames m.framePool, references m.memory roots f = 0

section OneReference

variable {roots : Finset ℕ} {m m' : Machine}

/-- With one reference to each table the levels are apart. -/
theorem OneReference.growable (h : OneReference roots m) (hne : m.framePool ≠ []) : Growable roots m :=
  ⟨h.pool, hne, Links.leveled_of_single h.tables, h.free⟩

/-- Growth keeps one reference to each table. -/
theorem OneReference.grow (h : OneReference roots m) (hgrowable : Growable roots m)
    (hgrow : Grow roots m m') : OneReference roots m' := by
  have hnext := hgrowable.grow hgrow
  refine ⟨hnext.pool, fun T hT => ?_, hnext.unreferenced⟩
  cases hgrow with
  | same hpool hmem =>
    rw [hmem] at hT ⊢
    exact h.tables T hT
  | table l p w f hl hT' hi hold hw hf hne hpool hmem =>
    obtain ⟨-, htables, hrefs⟩ := hgrowable.table_effect hl hT' hi hold hw hf hne
    have hzero := (hgrowable.fresh hf hne).1
    obtain ⟨k, hk, hmemk⟩ := hT
    rw [hmem, htables k hk] at hmemk
    rw [hmem, hrefs]
    by_cases hTf : T = f
    · rw [if_pos hTf, hTf, hzero]
    · rw [if_neg hTf, h.tables T ⟨k, hk, ?_⟩]
      split at hmemk
      · exact (Finset.mem_insert.mp hmemk).resolve_left hTf
      · exact hmemk

/-- A whole walk keeps one reference to each table. -/
theorem Grown.oneReference (hgrown : Grown roots m m') (h : OneReference roots m) (hne : m.framePool ≠ []) :
    OneReference roots m' :=
  (Grown.invariant (OneReference roots) (fun _ _ ha hgrow hone => hone.grow ha hgrow) (h.growable hne) hgrown h).2

/-- The root and the path of a walk are determined by the leaf table it ends in. -/
theorem OneReference.walk_place (h : OneReference roots m) {cr3 cr3' va va' pt : ℕ} (hcr3 : align cr3 ∈ roots)
    (hcr3' : align cr3' ∈ roots) (hwalk : paging.walk m.memory 0 (align cr3) (indices va) = some pt)
    (hwalk' : paging.walk m.memory 0 (align cr3') (indices va') = some pt) :
    align cr3 = align cr3' ∧ indices va = indices va' := by
  refine Links.walk_inj (fun k hk X hX => ?_) (show (indices va).length = (indices va').length from rfl)
    (l := 0) (by simp [indices, paging]) hcr3 hcr3' (indices_mem va) (indices_mem va') hwalk hwalk'
  have hsingle := h.tables X ⟨k + 1, hk, hX⟩
  unfold references at hsingle
  omega

end OneReference

/-- The walk theorem: `__get_page` with allocation fails only with the pool exhausted; otherwise a
later walk returns the same slot exactly for the addresses that agree on bits 12 to 47. Either way
every table keeps its one reference and the entry seen at every address stays the same. -/
theorem getPage_isolated (m : Machine) (roots : Finset ℕ) (cr3 va : ℕ) (user : Bool)
    (hone : OneReference roots m) (hpool : m.framePool ≠ []) (hcr3 : align cr3 ∈ roots)
    (hva : pmlIndex va ≠ 510) :
    (((m.getPage va cr3 true user).1 = none ∧
        ∀ s ∈ (m.getPage va cr3 true user).2.framePool, s.head = none) ∨
      ∃ slot, (m.getPage va cr3 true user).1 = some slot ∧ ∀ va', pmlIndex va' ≠ 510 → ∀ user',
        (((m.getPage va cr3 true user).2.getPage va' cr3 false user').1 = some slot ↔
          va' / 2 ^ 12 % 2 ^ 36 = va / 2 ^ 12 % 2 ^ 36)) ∧
      OneReference roots (m.getPage va cr3 true user).2 ∧
      ∀ cr3', align cr3' ∈ roots → ∀ va', pmlIndex va' ≠ 510 →
        (m.getPage va cr3 true user).2.pageEntry va' cr3' = m.pageEntry va' cr3' := by
  have hgrowable := hone.growable hpool
  obtain ⟨hgrown, hresult⟩ := hgrowable.getPage hcr3 hva user
  have hone' := hgrown.oneReference hone hpool
  refine ⟨hresult.imp_right ?_, hone', fun cr3' hcr3' va' hva' => ?_⟩
  · rintro ⟨pt, hslot, hwalk⟩
    refine ⟨_, hslot, fun va' hva' user' => ?_⟩
    rw [Machine.getPage_false _ cr3 user' hva', ← indices_eq_iff]
    simp only [Option.map_eq_some_iff, Slot.mk.injEq]
    constructor
    · rintro ⟨pt', hwalk', rfl, hindex⟩
      exact ⟨(hone'.walk_place hcr3 hcr3 hwalk' hwalk).2, hindex⟩
    · rintro ⟨hindices, hindex⟩
      exact ⟨pt, by rw [hindices, hwalk], rfl, hindex⟩
  · rw [Machine.pageEntry_eq _ cr3' hva', Machine.pageEntry_eq _ cr3' hva']
    exact hgrown.leafEntry hgrowable hcr3' va'

/-- Memory without a single entry links nothing. -/
theorem linkCount_blank (roots : Finset ℕ) (n : ℕ) : paging.linkCount (fun _ _ => 0) roots n = 0 :=
  Finset.sum_eq_zero fun l _ => Finset.sum_eq_zero fun T _ => Finset.sum_eq_zero fun i _ => by
    simp [Links.linkAt, child_zero]

/-- A machine with one small section and an empty root table below it. -/
def blankMachine : Machine where
  framePool := [smallRegion.build]
  memory := fun _ _ => 0
  activePage := 0x100000
  memMirrorPresent := true
  tmpHeap := 0
  lockLog := []

/-- The pool of the blank machine is sound. -/
theorem blankMachine_pool : PoolInv blankMachine.framePool :=
  build_poolInv [smallRegion] (List.pairwise_singleton _ _)
    (by simp only [List.mem_singleton, forall_eq]; decide)

/-- The blank machine has one reference to its only table and none to a free frame. -/
theorem blankMachine_oneReference : OneReference {0x100000} blankMachine := by
  refine ⟨blankMachine_pool, ?_, ?_⟩
  · rintro T ⟨l, hl, hT⟩
    have hzero : paging.linkCount blankMachine.memory {0x100000} T = 0 := linkCount_blank {0x100000} T
    cases l with
    | zero =>
      have hroot : T ∈ ({0x100000} : Finset ℕ) := hT
      rw [references, if_pos hroot, hzero]
    | succ l => exact absurd hT (Links.not_mem_tables_of_linkCount hzero (Nat.lt_of_succ_lt hl))
  · intro f hf
    have hhigh := ((blankMachine_pool.mem_freeFrames f).mp hf).2.1
    have hzero : paging.linkCount blankMachine.memory {0x100000} f = 0 := linkCount_blank {0x100000} f
    rw [references, hzero, if_neg fun hmem => by rw [Finset.mem_singleton] at hmem; omega]

/-- The walk theorem for the first page above 4 MiB of an empty address space. -/
theorem getPage_isolated_blank :
    (((blankMachine.getPage 0x400000 0x100000 true true).1 = none ∧
        ∀ s ∈ (blankMachine.getPage 0x400000 0x100000 true true).2.framePool, s.head = none) ∨
      ∃ slot, (blankMachine.getPage 0x400000 0x100000 true true).1 = some slot ∧
        ∀ va', pmlIndex va' ≠ 510 → ∀ user',
        (((blankMachine.getPage 0x400000 0x100000 true true).2.getPage va' 0x100000 false user').1 = some slot ↔
          va' / 2 ^ 12 % 2 ^ 36 = 0x400000 / 2 ^ 12 % 2 ^ 36)) ∧
      OneReference {0x100000} (blankMachine.getPage 0x400000 0x100000 true true).2 ∧
      ∀ cr3', align cr3' ∈ ({0x100000} : Finset ℕ) → ∀ va', pmlIndex va' ≠ 510 →
        (blankMachine.getPage 0x400000 0x100000 true true).2.pageEntry va' cr3' =
          blankMachine.pageEntry va' cr3' :=
  getPage_isolated blankMachine {0x100000} 0x100000 0x400000 true blankMachine_oneReference
    (List.cons_ne_nil _ _) (by decide) (by decide)

end Cthulhu
