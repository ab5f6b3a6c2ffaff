import Cthulhu.Lib.LinkWalk
import Cthulhu.Memory.PageTable

/-!
# References held by page tables

The four-level tables as an instance of the multi-level tables of the library, and the number
of references to a frame: the entries of tables that lead to it, and the root registers that
hold it. Upper entries are read as the code reads them, leaf entries as the processor does.
The slot of the memory mirror holds every frame of the machine and counts for none.

The lemmas say what a single write does to the tables, their levels and the references.
-/

namespace Cthulhu

open Lib

/-- The physical address field of a leaf entry. -/
def frameOf (w : ℕ) : ℕ := 0x1000 * (w / 0x1000 % 2 ^ 50)

/-- The four levels of page tables, without the mirror slot of the roots. -/
def paging : Links ℕ ℕ ℕ where
  depth := 4
  slots := Finset.range 512
  child l i w := if present w ∧ ¬ (l = 0 ∧ i = 510) then some (if l < 3 then align w else frameOf w) else none

/-- The entries of tables that lead to the frame, and its use as a root. -/
def references (mem : Memory) (roots : Finset ℕ) (f : ℕ) : ℕ :=
  (if f ∈ roots then 1 else 0) + paging.linkCount mem roots f

/-- An entry that is not present leads nowhere. -/
theorem child_of_not_present {l i w : ℕ} (h : present w = false) : paging.child l i w = none := by
  simp [paging, h]

/-- A cleared entry leads nowhere. -/
theorem child_zero (l i : ℕ) : paging.child l i 0 = none := child_of_not_present rfl

/-- A present entry above the leaves leads to the aligned table address. -/
theorem child_upper {l i w : ℕ} (hl : l < 3) (hmirror : ¬ (l = 0 ∧ i = 510)) (h : present w = true) :
    paging.child l i w = some (align w) := by
  simp only [paging, h, hmirror, hl, not_false_eq_true, and_self, if_true]

/-- A leaf entry leads to its frame when it is present. -/
theorem child_leaf (i w : ℕ) : paging.child 3 i w = if present w then some (frameOf w) else none := by
  simp [paging]

/-- An entry above the leaves that leads to a table is present and holds its address. -/
theorem present_align_of_child {l i w C : ℕ} (hl : l < 3) (h : paging.child l i w = some C) :
    present w = true ∧ align w = C := by
  unfold paging at h
  simp only [hl, if_true] at h
  split at h
  next hpresent => exact ⟨hpresent.1, Option.some.inj h⟩
  next => exact absurd h (by simp)

section Effects

variable {mem mem' : Memory} {roots : Finset ℕ} {f : ℕ}

/-- A frame without references is no table. -/
theorem not_isTable_of_references (h : references mem roots f = 0) : ¬ paging.IsTable mem roots f := by
  unfold references at h
  rintro ⟨l, hl, hmem⟩
  cases l with
  | zero =>
    rw [if_pos (show f ∈ roots from hmem)] at h
    omega
  | succ l =>
    exact Links.not_mem_tables_of_linkCount (by omega) (Nat.lt_of_succ_lt hl) hmem

/-- Words of a frame that is no table are read by no walk. -/
theorem child_off (hnot : ¬ paging.IsTable mem roots f) (hoff : ∀ n, n ≠ f → mem' n = mem n)
    (l : ℕ) (hl : l < 4) (T : ℕ) (hT : T ∈ paging.tables mem roots l) : mem' T = mem T := by
  refine hoff T fun heq => hnot ⟨l, hl, heq ▸ hT⟩

/-- Changing a frame that is no table keeps the tables. -/
theorem tables_off (hnot : ¬ paging.IsTable mem roots f) (hoff : ∀ n, n ≠ f → mem' n = mem n)
    {l : ℕ} (hl : l ≤ 4) : paging.tables mem' roots l = paging.tables mem roots l :=
  Links.tables_congr (fun k hk T hT i _ => by rw [child_off hnot hoff k hk T hT]) l hl

/-- Changing a frame that is no table keeps the levels. -/
theorem leveled_off (hlev : paging.Leveled mem roots) (hnot : ¬ paging.IsTable mem roots f)
    (hoff : ∀ n, n ≠ f → mem' n = mem n) : paging.Leveled mem' roots :=
  hlev.mono fun l hl => by rw [tables_off hnot hoff (Nat.le_of_lt hl)]

/-- Changing a frame that is no table keeps every reference. -/
theorem references_off (hnot : ¬ paging.IsTable mem roots f) (hoff : ∀ n, n ≠ f → mem' n = mem n) (n : ℕ) :
    references mem' roots n = references mem roots n := by
  unfold references
  rw [Links.linkCount_congr fun k hk T hT i _ => by rw [child_off hnot hoff k hk T hT]]

/-- Changing a frame that is no table keeps every walk from a table. -/
theorem walk_off (hnot : ¬ paging.IsTable mem roots f) (hoff : ∀ n, n ≠ f → mem' n = mem n)
    {l T : ℕ} {path : List ℕ} (hT : T ∈ paging.tables mem roots l) (hpath : ∀ i ∈ path, i ∈ paging.slots)
    (hlen : l + path.length ≤ 4) : paging.walk mem' l T path = paging.walk mem l T path :=
  Links.walk_congr hT hpath fun k _ hk T' hT' i _ => by
    rw [child_off hnot hoff k (by omega) T' hT']

variable {l : ℕ} {p : Slot} {w : ℕ}

/-- Overwriting an entry with one that leads to the same place changes no link. -/
theorem child_store_same (hlev : paging.Leveled mem roots) (hl : l < 4) (hT : p.table ∈ paging.tables mem roots l)
    (hw : paging.child l p.index w = paging.child l p.index (mem p.table p.index)) (l' : ℕ) (hl' : l' < 4) (T' : ℕ)
    (hT' : T' ∈ paging.tables mem roots l') (j : ℕ) :
    paging.child l' j (Links.store mem p.table p.index w T' j) = paging.child l' j (mem T' j) := by
  by_cases hhere : T' = p.table ∧ j = p.index
  · obtain ⟨rfl, rfl⟩ := hhere
    obtain rfl : l' = l := hlev l' hl' l hl _ hT' hT
    rw [Links.store_self, hw]
  · rw [Links.store_of_ne mem w hhere]

/-- Overwriting an entry with one that leads to the same place changes no table and no reference. -/
theorem store_same (hlev : paging.Leveled mem roots) (hl : l < 4) (hT : p.table ∈ paging.tables mem roots l)
    (hw : paging.child l p.index w = paging.child l p.index (mem p.table p.index)) :
    (∀ l' ≤ 4, paging.tables (Links.store mem p.table p.index w) roots l' = paging.tables mem roots l') ∧
      ∀ n, references (Links.store mem p.table p.index w) roots n = references mem roots n := by
  have hchild (l' : ℕ) (hl' : l' < 4) (T' : ℕ) (hT' : T' ∈ paging.tables mem roots l') (j : ℕ)
      (_ : j ∈ paging.slots) := child_store_same hlev hl hT hw l' hl' T' hT' j
  refine ⟨Links.tables_congr hchild, fun n => ?_⟩
  unfold references
  rw [Links.linkCount_congr hchild]

/-- Linking a frame from an entry that led nowhere adds one reference to it.

A frame linked as a table has to be cleared and without references. -/
theorem store_link (hlev : paging.Leveled mem roots) (hl : l < 4) (hT : p.table ∈ paging.tables mem roots l)
    (hi : p.index < 512) (hold : paging.child l p.index (mem p.table p.index) = none)
    (hw : paging.child l p.index w = some f)
    (hfresh : l + 1 < 4 → references mem roots f = 0 ∧ ∀ j < 512, mem f j = 0) :
    paging.Leveled (Links.store mem p.table p.index w) roots ∧
      (∀ l' < 4, paging.tables (Links.store mem p.table p.index w) roots l' =
        if l' = l + 1 then insert f (paging.tables mem roots l') else paging.tables mem roots l') ∧
      ∀ n, references (Links.store mem p.table p.index w) roots n =
        references mem roots n + if n = f then 1 else 0 := by
  have hi' : p.index ∈ paging.slots := Finset.mem_range.mpr hi
  have hfresh' : l + 1 < paging.depth → ¬ paging.IsTable mem roots f ∧ paging.Empty mem (l + 1) f := by
    intro hdepth
    obtain ⟨href, hclear⟩ := hfresh hdepth
    refine ⟨not_isTable_of_references href, fun j hj => ?_⟩
    rw [hclear j (Finset.mem_range.mp hj), child_zero]
  refine ⟨hlev.graft hl hT hi' hold hw hfresh', hlev.tables_graft hl hT hi' hold hw hfresh', fun n => ?_⟩
  unfold references
  rw [hlev.linkCount_graft hl hT hi' hold hw hfresh', Nat.add_assoc]

/-- Overwriting an entry with one that leads nowhere takes one reference from where it led.

A table it led to has to be cleared. -/
theorem store_unlink (hlev : paging.Leveled mem roots) (hl : l < 4) (hT : p.table ∈ paging.tables mem roots l)
    (hi : p.index < 512) (hw : paging.child l p.index w = none)
    (hclear : l + 1 < 4 → ∀ C, paging.child l p.index (mem p.table p.index) = some C →
      ∀ j < 512, mem C j = 0) :
    paging.Leveled (Links.store mem p.table p.index w) roots ∧
      (∀ l' < 4, paging.tables (Links.store mem p.table p.index w) roots l' ⊆ paging.tables mem roots l') ∧
      ∀ n, references (Links.store mem p.table p.index w) roots n +
        (if paging.child l p.index (mem p.table p.index) = some n then 1 else 0) = references mem roots n := by
  have hi' : p.index ∈ paging.slots := Finset.mem_range.mpr hi
  have hempty : l + 1 < paging.depth → ∀ C, paging.child l p.index (mem p.table p.index) = some C →
      paging.Empty mem (l + 1) C := by
    intro hdepth C hC j hj
    rw [hclear hdepth C hC j (Finset.mem_range.mp hj), child_zero]
  obtain ⟨hsub, -⟩ := hlev.tables_cut hl hT hw hempty
  refine ⟨hlev.mono hsub, hsub, fun n => ?_⟩
  unfold references
  rw [← hlev.linkCount_cut hl hT hi' hw hempty n]
  omega

end Effects

end Cthulhu
