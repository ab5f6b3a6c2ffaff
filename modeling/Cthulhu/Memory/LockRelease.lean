import Cthulhu.Memory.LockCalls

/-!
# The locks of the paging interface at its returns

`allocate_mem` and `deallocate` leave both locks free when they were free. Without a frame the frame lock is
released once too often, which leaves it free all the same.
-/

namespace Cthulhu

open Lib

/-- A lock of the paging interface is held, as its log says. -/
def Machine.pagingHeld (m : Machine) (l : PagingLock) : Bool := heldAfter l false m.lockLog

section Paging

variable {m : Machine}

/-- `get_free_frame` does not touch the lock of the translation caches. -/
@[simp] theorem Machine.getFreeFrame_pagingHeld_tlb : m.getFreeFrame.2.pagingHeld .tlb = m.pagingHeld .tlb := by
  unfold Machine.getFreeFrame
  cases m.framePool with
  | nil => rfl
  | cons s rest =>
    dsimp only
    split
    · exact heldAfter_append .tlb false m.lockLog _
    · rfl

/-- Nor does one level of a walk. -/
@[simp] theorem Machine.descend_pagingHeld_tlb (entry : Slot) (allocateNew user : Bool) :
    (m.descend entry allocateNew user).2.pagingHeld .tlb = m.pagingHeld .tlb := by
  unfold Machine.descend
  split
  · rfl
  · split
    · dsimp only
      split
      · exact Machine.getFreeFrame_pagingHeld_tlb
      · exact Machine.getFreeFrame_pagingHeld_tlb
    · rfl

/-- Nor does a walk. -/
@[simp] theorem Machine.getPage_pagingHeld_tlb (va cr3 : ℕ) (allocateNew user : Bool) :
    (m.getPage va cr3 allocateNew user).2.pagingHeld .tlb = m.pagingHeld .tlb := by
  unfold Machine.getPage
  dsimp only
  split
  · simp
  · split
    · simp
    · split <;> simp

/-- Nor does `allocate_frame`. -/
@[simp] theorem Machine.allocateFrame_pagingHeld_tlb (p : Slot) (kernel readonly exec : Bool) :
    (m.allocateFrame p kernel readonly exec).2.pagingHeld .tlb = m.pagingHeld .tlb := by
  unfold Machine.allocateFrame
  dsimp only
  generalize (if (bit (m.load p) 1 && bit (m.load p) 3) = true then bit (m.load p) 4 else exec) = flag
  split
  · rfl
  · split
    · exact Machine.getFreeFrame_pagingHeld_tlb
    · generalize Machine.pageFlags _ _ _ _ = page
      dsimp only
      split <;> exact Machine.getFreeFrame_pagingHeld_tlb

/-- The frame lock is free after its release, and the other lock is as it was. -/
theorem Machine.unlock_pagingHeld (h : m.pagingHeld .tlb = false) (l : PagingLock) :
    (m.unlock .frame).pagingHeld l = false := by
  cases l with
  | frame => exact heldAfter_append .frame false m.lockLog [.unlock .frame]
  | tlb => exact (heldAfter_append .tlb false m.lockLog [.unlock .frame]).trans h

/-- A round of `allocate_mem` ends with the release of the frame lock. -/
theorem Machine.allocateMemPage_released (kernel readonly : Bool) (cr3 : ℕ) (stale : ℕ → ℕ)
    {st : (AllocInfo × Machine) × Bool} (h : ∀ l, st.1.2.pagingHeld l = false) (addr : ℕ) (l : PagingLock) :
    (Machine.allocateMemPage kernel readonly cr3 stale st addr).1.2.pagingHeld l = false := by
  have hlock : (st.1.2.lock .frame).pagingHeld .tlb = false :=
    (heldAfter_append .tlb false st.1.2.lockLog [.lock .frame]).trans (h .tlb)
  unfold Machine.allocateMemPage
  split
  · exact h l
  · dsimp only
    split
    · exact Machine.unlock_pagingHeld (by simp [hlock]) l
    · split
      · exact Machine.unlock_pagingHeld ((Machine.getPage_pagingHeld_tlb _ _ _ _).trans hlock) l
      · split <;> exact Machine.unlock_pagingHeld (by simp [hlock]) l

/-- `allocate_mem` leaves the locks of the paging interface free. -/
theorem Machine.allocateMem_released (h : ∀ l, m.pagingHeld l = false) (ainfo : AllocInfo) (kernel readonly : Bool)
    (cr3 : ℕ) (stale : ℕ → ℕ) (l : PagingLock) : (m.allocateMem ainfo kernel readonly cr3 stale).2.pagingHeld l = false := by
  unfold Machine.allocateMem
  dsimp only
  have hrun (st : (AllocInfo × Machine) × Bool) (hst : ∀ l, st.1.2.pagingHeld l = false) (pages : List ℕ) :
      ∀ l, (run (Machine.allocateMemPage kernel readonly cr3 stale) st pages).1.2.pagingHeld l = false := by
    induction pages generalizing st with
    | nil => exact hst
    | cons a pages ih => exact ih _ (Machine.allocateMemPage_released kernel readonly cr3 stale hst a)
  split <;> exact hrun _ h _ l

/-- `deallocate` leaves them free. -/
theorem Machine.deallocate_released (h : ∀ l, m.pagingHeld l = false) (start amount cr3 : ℕ) (l : PagingLock) :
    (m.deallocate start amount cr3).pagingHeld l = false := by
  obtain ⟨events, hlog, hdisc⟩ := m.deallocate_log start amount cr3
  rw [Machine.pagingHeld, hlog, heldAfter_append]
  have hfree : heldAfter l false m.lockLog = false := h l
  rw [hfree]
  exact hdisc.released l

end Paging

end Cthulhu
