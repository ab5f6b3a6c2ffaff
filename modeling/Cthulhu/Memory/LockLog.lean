import Cthulhu.Memory.Paging
import Cthulhu.Memory.GetPage

/-!
# The lock log of the paging interface

What each function of the page-table layer records about the two spinlocks. Only
`get_free_frame` touches a lock on its own: with the pool exhausted it releases the frame lock,
whoever holds it. The frames a call asks for are described level by level and page by page, as
the call comes to them.
-/

namespace Cthulhu

open Lib

/-- Whether the lock is held after the events, given whether it was before. -/
def heldAfter (l : PagingLock) (held : Bool) (events : List LockEvent) : Bool :=
  events.foldl (fun held e => if e = .lock l then true else if e = .unlock l then false else held) held

/-- Every release of the frame lock finds it held. -/
def FrameOwned : Bool → List LockEvent → Prop
  | _, [] => True
  | held, .unlock .frame :: rest => held = true ∧ FrameOwned false rest
  | _, .lock .frame :: rest => FrameOwned true rest
  | held, _ :: rest => FrameOwned held rest

/-- The discipline of one call: it ends with neither lock held, has released each lock as often as
it acquired it, and never released the frame lock without holding it. -/
structure Disciplined (events : List LockEvent) : Prop where
  released : ∀ l, heldAfter l false events = false
  balanced : ∀ l, events.count (.lock l) = events.count (.unlock l)
  owned : FrameOwned false events

/-- The frame lock taken and released a number of times. -/
def framePairs (k : ℕ) : List LockEvent := (List.replicate k [.lock .frame, .unlock .frame]).flatten

section Events

/-- Locks held after two stretches of events. -/
theorem heldAfter_append (l : PagingLock) (held : Bool) (a b : List LockEvent) :
    heldAfter l held (a ++ b) = heldAfter l (heldAfter l held a) b := List.foldl_append

/-- Ownership over two stretches of events. -/
theorem frameOwned_append (held : Bool) (a b : List LockEvent) :
    FrameOwned held (a ++ b) ↔ FrameOwned held a ∧ FrameOwned (heldAfter .frame held a) b := by
  induction a generalizing held with
  | nil => exact ⟨fun h => ⟨trivial, h⟩, fun h => h.2⟩
  | cons e a ih =>
    rcases e with ⟨_ | _⟩ | ⟨_ | _⟩
    · exact ih true
    · exact ih held
    · refine (and_congr_right fun _ => ih false).trans ?_
      rw [← and_assoc]
      rfl
    · exact ih held

/-- Disciplined stretches follow one another. -/
theorem Disciplined.append {a b : List LockEvent} (ha : Disciplined a) (hb : Disciplined b) : Disciplined (a ++ b) where
  released l := by rw [heldAfter_append, ha.released, hb.released]
  balanced l := by rw [List.count_append, List.count_append, ha.balanced, hb.balanced]
  owned := (frameOwned_append false a b).mpr ⟨ha.owned, by rw [ha.released]; exact hb.owned⟩

/-- A release of the frame lock after a disciplined stretch is one too many. -/
theorem not_disciplined_unlock {a : List LockEvent} (ha : Disciplined a) (rest : List LockEvent) :
    ¬ Disciplined (a ++ .unlock .frame :: rest) := by
  intro h
  have howned := ((frameOwned_append false a _).mp h.owned).2
  rw [ha.released] at howned
  exact absurd howned.1 (by decide)

/-- No events. -/
theorem Disciplined.nil : Disciplined [] := ⟨fun _ => rfl, fun _ => rfl, trivial⟩

/-- One acquisition of the frame lock and its release. -/
theorem Disciplined.pair : Disciplined [.lock .frame, .unlock .frame] :=
  ⟨fun l => by cases l <;> rfl, fun l => by cases l <;> rfl, rfl, trivial⟩

/-- Acquisitions and releases of the frame lock in turn. -/
theorem Disciplined.pairs (k : ℕ) : Disciplined (framePairs k) := by
  induction k with
  | zero => exact .nil
  | succ k ih =>
    unfold framePairs
    rw [List.replicate_succ, List.flatten_cons]
    exact Disciplined.pair.append ih

/-- A disciplined stretch inside a `tlb_shootdown` and its end. -/
theorem Disciplined.withTlb {a : List LockEvent} (ha : Disciplined a) :
    Disciplined (.lock .tlb :: (a ++ [.unlock .tlb])) where
  released l := by
    cases l with
    | frame =>
      have hlast : heldAfter .frame (heldAfter .frame false a) [.unlock .tlb] = heldAfter .frame false a := rfl
      exact (heldAfter_append .frame false a [.unlock .tlb]).trans (hlast.trans (ha.released .frame))
    | tlb => exact heldAfter_append .tlb true a [.unlock .tlb]
  balanced l := by
    have hbalanced := ha.balanced l
    cases l <;> simp [List.count_append, hbalanced]
  owned := (frameOwned_append false a [.unlock .tlb]).mpr ⟨ha.owned, trivial⟩

/-- With the translation lock still held a call is not disciplined. -/
theorem not_disciplined_tlb {a : List LockEvent} (ha : heldAfter .tlb true a = true) :
    ¬ Disciplined (.lock .tlb :: a) := by
  intro h
  have hreleased : heldAfter .tlb true a = false := h.released .tlb
  rw [ha] at hreleased
  exact absurd hreleased (by decide)

end Events

namespace Machine

/-- The pool has a frame left. -/
def HasFrame (m : Machine) : Prop := (Cthulhu.getFreeFrame m.framePool).1 ≠ 0

/-- The entry is present, or there is a frame for it. -/
def Supplied (m : Machine) (p : Slot) : Prop := present (m.load p) = true ∨ m.HasFrame

/-- Every table the walk has to make finds a frame. -/
def WalkSupplied (m : Machine) (va cr3 : ℕ) (user : Bool) : Prop :=
  m.Supplied ⟨align cr3, pmlIndex va⟩ ∧
    ∀ pdpt m₁, m.descend ⟨align cr3, pmlIndex va⟩ true user = (some pdpt, m₁) →
      m₁.Supplied ⟨pdpt, directoryPtrIndex va⟩ ∧
        ∀ pdir m₂, m₁.descend ⟨pdpt, directoryPtrIndex va⟩ true user = (some pdir, m₂) →
          m₂.Supplied ⟨pdir, directoryIndex va⟩

/-- Every table and the page itself find a frame. -/
def PageSupplied (m : Machine) (va cr3 : ℕ) (user : Bool) : Prop :=
  m.WalkSupplied va cr3 user ∧ ∀ p m₁, m.getPage va cr3 true user = (some p, m₁) → m₁.Supplied p

end Machine

section Walk

variable {m : Machine}

/-- One level of a walk: a table and no event, or none and the frame lock released. -/
theorem Machine.descend_log (hpool : m.framePool ≠ []) (entry : Slot) (user : Bool) :
    (m.descend entry true user).2.framePool ≠ [] ∧
      (m.Supplied entry ∧ (∃ T, (m.descend entry true user).1 = some T) ∧
          (m.descend entry true user).2.lockLog = m.lockLog ∨
        ¬ m.Supplied entry ∧ (m.descend entry true user).1 = none ∧
          (m.descend entry true user).2.lockLog = m.lockLog ++ [.unlock .frame]) := by
  unfold Machine.descend Machine.Supplied Machine.HasFrame
  cases hpresent : present (m.load entry) with
  | true => exact ⟨hpool, Or.inl ⟨Or.inl rfl, ⟨_, rfl⟩, rfl⟩⟩
  | false =>
    simp only [Bool.false_eq_true, if_false, if_true, false_or, Machine.getFreeFrame_eq hpool]
    by_cases hzero : (Cthulhu.getFreeFrame m.framePool).1 = 0
    · simp only [hzero, if_true]
      exact ⟨hpool, Or.inr ⟨by simp, trivial, rfl⟩⟩
    · simp only [hzero, if_false]
      exact ⟨getFreeFrame_ne_nil hpool, Or.inl ⟨hzero, ⟨_, rfl⟩, rfl⟩⟩

/-- A walk: a slot and no event, or none and the frame lock released. -/
theorem Machine.getPage_log (hpool : m.framePool ≠ []) (va cr3 : ℕ) (user : Bool) :
    (m.getPage va cr3 true user).2.framePool ≠ [] ∧
      (m.WalkSupplied va cr3 user ∧ (∃ p, (m.getPage va cr3 true user).1 = some p) ∧
          (m.getPage va cr3 true user).2.lockLog = m.lockLog ∨
        ¬ m.WalkSupplied va cr3 user ∧ (m.getPage va cr3 true user).1 = none ∧
          (m.getPage va cr3 true user).2.lockLog = m.lockLog ++ [.unlock .frame]) := by
  unfold Machine.getPage Machine.WalkSupplied
  obtain ⟨hpool₀, hcases₀⟩ := m.descend_log hpool ⟨align cr3, pmlIndex va⟩ user
  generalize m.descend ⟨align cr3, pmlIndex va⟩ true user = r₀ at *
  obtain ⟨res₀, m₀⟩ := r₀
  rcases hcases₀ with ⟨hsup₀, ⟨pdpt, rfl⟩, hlog₀⟩ | ⟨hsup₀, rfl, hlog₀⟩
  swap
  · exact ⟨hpool₀, Or.inr ⟨fun h => hsup₀ h.1, rfl, hlog₀⟩⟩
  have hnext₀ (P : ℕ → Machine → Prop) : (∀ T a, (some pdpt, m₀) = (some T, a) → P T a) ↔ P pdpt m₀ := by
    simp only [Prod.mk.injEq, Option.some.injEq, and_imp]
    exact ⟨fun h => h _ _ rfl rfl, fun h T a hT ha => hT ▸ ha ▸ h⟩
  rw [hnext₀]
  obtain ⟨hpool₁, hcases₁⟩ := m₀.descend_log hpool₀ ⟨pdpt, directoryPtrIndex va⟩ user
  dsimp only at hlog₀ ⊢
  generalize m₀.descend ⟨pdpt, directoryPtrIndex va⟩ true user = r₁ at *
  obtain ⟨res₁, m₁⟩ := r₁
  rw [hlog₀] at hcases₁
  rcases hcases₁ with ⟨hsup₁, ⟨pdir, rfl⟩, hlog₁⟩ | ⟨hsup₁, rfl, hlog₁⟩
  swap
  · exact ⟨hpool₁, Or.inr ⟨fun h => hsup₁ h.2.1, rfl, hlog₁⟩⟩
  have hnext₁ (P : ℕ → Machine → Prop) : (∀ T a, (some pdir, m₁) = (some T, a) → P T a) ↔ P pdir m₁ := by
    simp only [Prod.mk.injEq, Option.some.injEq, and_imp]
    exact ⟨fun h => h _ _ rfl rfl, fun h T a hT ha => hT ▸ ha ▸ h⟩
  rw [hnext₁]
  obtain ⟨hpool₂, hcases₂⟩ := m₁.descend_log hpool₁ ⟨pdir, directoryIndex va⟩ user
  dsimp only at hlog₁ ⊢
  generalize m₁.descend ⟨pdir, directoryIndex va⟩ true user = r₂ at *
  obtain ⟨res₂, m₂⟩ := r₂
  rw [hlog₁] at hcases₂
  rcases hcases₂ with ⟨hsup₂, ⟨pt, rfl⟩, hlog₂⟩ | ⟨hsup₂, rfl, hlog₂⟩
  · exact ⟨hpool₂, Or.inl ⟨⟨hsup₀, hsup₁, hsup₂⟩, ⟨_, rfl⟩, hlog₂⟩⟩
  · exact ⟨hpool₂, Or.inr ⟨fun h => hsup₂ h.2.2, rfl, hlog₂⟩⟩

/-- `allocate_frame`: no event, or zero and the frame lock released. -/
theorem Machine.allocateFrame_log (hpool : m.framePool ≠ []) (p : Slot) (kernel readonly exec : Bool) :
    (m.allocateFrame p kernel readonly exec).2.framePool ≠ [] ∧
      (m.Supplied p ∧ (m.allocateFrame p kernel readonly exec).2.lockLog = m.lockLog ∨
        ¬ m.Supplied p ∧ (m.allocateFrame p kernel readonly exec).1 = 0 ∧
          (m.allocateFrame p kernel readonly exec).2.lockLog = m.lockLog ++ [.unlock .frame]) := by
  unfold Machine.allocateFrame Machine.Supplied Machine.HasFrame
  dsimp only
  cases hpresent : present (m.load p) with
  | true => exact ⟨hpool, Or.inl ⟨Or.inl rfl, rfl⟩⟩
  | false =>
    simp only [Bool.false_eq_true, if_false, false_or, Machine.getFreeFrame_eq hpool]
    by_cases hzero : (Cthulhu.getFreeFrame m.framePool).1 = 0
    · simp only [hzero, if_true]
      exact ⟨hpool, Or.inr ⟨by simp, trivial, rfl⟩⟩
    · simp only [hzero, if_false]
      generalize Machine.pageFlags _ _ _ _ = page
      refine ⟨?_, Or.inl ⟨hzero, ?_⟩⟩
      · split <;> exact getFreeFrame_ne_nil hpool
      · split <;> rfl

/-- The two outcomes of a walk, with what is then left to supply. -/
theorem Machine.getPage_outcome (hpool : m.framePool ≠ []) (va cr3 : ℕ) (user : Bool) :
    (∃ m₁, m.getPage va cr3 true user = (none, m₁) ∧ ¬ m.WalkSupplied va cr3 user ∧ m₁.framePool ≠ [] ∧
        m₁.lockLog = m.lockLog ++ [.unlock .frame]) ∨
      ∃ p m₁, m.getPage va cr3 true user = (some p, m₁) ∧ m.WalkSupplied va cr3 user ∧
        (m.PageSupplied va cr3 user ↔ m₁.Supplied p) ∧ m₁.framePool ≠ [] ∧ m₁.lockLog = m.lockLog := by
  obtain ⟨hpool₁, hcases⟩ := m.getPage_log hpool va cr3 user
  unfold Machine.PageSupplied
  generalize m.getPage va cr3 true user = r at *
  obtain ⟨res, m₁⟩ := r
  rcases hcases with ⟨hsup, ⟨p, rfl⟩, hlog⟩ | ⟨hsup, rfl, hlog⟩
  · refine Or.inr ⟨p, m₁, rfl, hsup, ⟨fun h => h.2 p m₁ rfl, fun h => ⟨hsup, fun q a heq => ?_⟩⟩, hpool₁, hlog⟩
    obtain ⟨hq, ha⟩ := Prod.mk.injEq .. ▸ heq
    rw [← ha, ← Option.some.inj hq]
    exact h
  · exact Or.inl ⟨m₁, rfl, hsup, hpool₁, hlog⟩

/-- The two outcomes of `allocate_frame`. -/
theorem Machine.allocateFrame_outcome (hpool : m.framePool ≠ []) (p : Slot) (kernel readonly exec : Bool) :
    (∃ m₁, m.allocateFrame p kernel readonly exec = (0, m₁) ∧ ¬ m.Supplied p ∧ m₁.framePool ≠ [] ∧
        m₁.lockLog = m.lockLog ++ [.unlock .frame]) ∨
      ∃ frame m₁, m.allocateFrame p kernel readonly exec = (frame, m₁) ∧ m.Supplied p ∧ m₁.framePool ≠ [] ∧
        m₁.lockLog = m.lockLog := by
  obtain ⟨hpool₁, hcases⟩ := m.allocateFrame_log hpool p kernel readonly exec
  generalize m.allocateFrame p kernel readonly exec = r at *
  obtain ⟨res, m₁⟩ := r
  rcases hcases with ⟨hsup, hlog⟩ | ⟨hsup, rfl, hlog⟩
  · exact Or.inr ⟨res, m₁, rfl, hsup, hpool₁, hlog⟩
  · exact Or.inl ⟨m₁, rfl, hsup, hpool₁, hlog⟩

end Walk

end Cthulhu
