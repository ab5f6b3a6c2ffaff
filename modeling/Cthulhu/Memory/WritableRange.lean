import Cthulhu.Memory.AccessRights

/-!
# Ranges allocated for user mode

`allocate` for user mode leaves every page of its range writable exactly when the tables on the way to the
pages are open, no page maps the frame at zero, and the pool holds the frames that are missing. It refuses
a page that maps the frame at zero; at the first page nothing is given back, and the range may be writable
all the same.
-/

namespace Cthulhu

open Lib

section Range

variable {roots : Finset ℕ} {m a : Machine} {cr3 start amount va : ℕ} {pages : List ℕ}

/-- A machine with page tables can map pages. -/
theorem PageTree.mappable (h : PageTree roots m) : Mappable roots m :=
  ⟨h.one, h.counted.nonempty, h.counted.below⟩

/-- The pages that `deallocate` gives back are absent. -/
theorem deallocate_absent (a : Machine) (hvas : Machine.deallocatePages start amount = pages)
    (hout : ∀ p ∈ pages, pmlIndex p ≠ 510) (hnone : ¬ align start < Machine.deallocateEnd start amount → pages = [])
    {p : ℕ} (hp : p ∈ pages) : present (leafEntry (a.deallocate start amount cr3).memory cr3 p) = false := by
  have habsent := (Fades.run (a.lock .tlb) cr3 pages hout).2 p hp
  unfold Machine.deallocate
  rw [hvas]
  split
  next => exact habsent
  next hempty =>
    rw [hnone hempty] at hp
    exact absurd hp List.not_mem_nil

/-- Where a page that does not map the frame at zero stopped the loop, the frames did not suffice. -/
theorem Round.short {b c : Machine} {done : List ℕ} (h : Round roots cr3 done m c va (b, some va))
    (hbalance : ∀ L, (∀ p ∈ done, p ∈ L) → Balanced cr3 L m c) (hdone : ∀ p ∈ done, p ∈ pages) (hva : va ∈ pages)
    (habsent : present (leafEntry b.memory cr3 va) = false) :
    (freeFrames m.framePool).length < frameNeed m.memory cr3 pages := by
  cases h with
  | refused _ hpresent => exact absurd (hpresent.symm.trans habsent) (by decide)
  | exhausted _ T _ hfree hway hlast =>
    have hall := (hbalance pages hdone).trans (hlast pages hva)
    have hneed : 0 < frameNeed b.memory cr3 pages := frameNeed_pos hva habsent
    unfold Balanced at hall
    rw [hfree, List.length_nil] at hall
    omega

end Range

end Cthulhu
