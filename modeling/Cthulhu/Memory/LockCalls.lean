import Cthulhu.Memory.LockLog

/-!
# Calls of the paging interface and their locks

The eight functions as calls, what each of them needs in order to find every frame it asks for,
and what one round of each of their loops adds to the lock log.
-/

namespace Cthulhu

open Lib

section Logs

variable {m : Machine}

@[simp] theorem Machine.store_lockLog (p : Slot) (w : ℕ) : (m.store p w).lockLog = m.lockLog := rfl

@[simp] theorem Machine.freeFrame_lockLog (a : ℕ) : (m.freeFrame a).lockLog = m.lockLog := by
  unfold Machine.freeFrame
  dsimp only
  split <;> rfl

/-- `free_page_structure` takes no lock. -/
@[simp] theorem Machine.freePageStructure_lockLog (va cr3 : ℕ) : (m.freePageStructure va cr3).lockLog = m.lockLog := by
  unfold Machine.freePageStructure
  dsimp only
  split_ifs <;> simp

/-- `deallocate_frame` takes no lock. -/
@[simp] theorem Machine.deallocateFrame_lockLog (p : Option Slot) (va cr3 : ℕ) :
    (m.deallocateFrame p va cr3).lockLog = m.lockLog := by
  unfold Machine.deallocateFrame
  split
  next => rfl
  next => split_ifs <;> simp

/-- The rounds of `deallocate` take the frame lock and release it. -/
theorem Machine.deallocatePages_log (cr3 : ℕ) (pages : List ℕ) :
    (run (Machine.deallocatePage cr3) m pages).lockLog = m.lockLog ++ framePairs pages.length := by
  induction pages generalizing m with
  | nil => exact (List.append_nil _).symm
  | cons a pages ih =>
    have hround : (Machine.deallocatePage cr3 m a).lockLog = m.lockLog ++ [.lock .frame, .unlock .frame] := by
      unfold Machine.deallocatePage Machine.unlock
      simp [Machine.lock]
    refine (ih (m := Machine.deallocatePage cr3 m a)).trans ?_
    rw [hround, List.append_assoc]
    rfl

/-- `deallocate` keeps the discipline. -/
theorem Machine.deallocate_log (start amount cr3 : ℕ) :
    ∃ events, (m.deallocate start amount cr3).lockLog = m.lockLog ++ events ∧ Disciplined events := by
  unfold Machine.deallocate
  split
  · refine ⟨_, ?_, (Disciplined.pairs (Machine.deallocatePages start amount).length).withTlb⟩
    unfold Machine.unlock
    dsimp only
    rw [Machine.deallocatePages_log]
    unfold Machine.lock
    simp
  · exact ⟨[], (List.append_nil _).symm, .nil⟩

end Logs

/-- A call of the paging interface, with its arguments. -/
inductive PagingCall
  | allocate (start amount : ℕ) (kernel readonly : Bool) (cr3 : ℕ)
  | allocateMem (ainfo : AllocInfo) (kernel readonly : Bool) (cr3 : ℕ) (stale : ℕ → ℕ)
  | allocatePhysret (blockAddr : ℕ) (kernel rw exec : Bool) (cr3 : ℕ)
  | createPml4
  | deallocate (start amount cr3 : ℕ)
  | pageFault (address errcode : ℕ) (stale : ℕ → ℕ)
  | memChangeType (start amount : ℕ) (changeType : Machine.ChangeType) (newValue : Bool) (cr3 : ℕ)
  | mapRange (start endAddr tostart : ℕ) (virtualMemory readonly kernel : Bool) (cr3 : ℕ)

/-- The state in which a call returns, or in which it reads a `NULL` entry. -/
def PagingCall.exec (m : Machine) : PagingCall → Machine
  | .allocate start amount kernel readonly cr3 => (m.allocate start amount kernel readonly cr3).2
  | .allocateMem ainfo kernel readonly cr3 stale => (m.allocateMem ainfo kernel readonly cr3 stale).2
  | .allocatePhysret blockAddr kernel rw exec cr3 => (m.allocatePhysret blockAddr kernel rw exec cr3).2
  | .createPml4 => m.createPml4.2
  | .deallocate start amount cr3 => m.deallocate start amount cr3
  | .pageFault address errcode stale => (m.pageFault address errcode stale).2
  | .memChangeType start amount changeType newValue cr3 => (m.memChangeType start amount changeType newValue cr3).2
  | .mapRange start endAddr tostart virtualMemory readonly kernel cr3 =>
    (m.mapRange start endAddr tostart virtualMemory readonly kernel cr3).2

namespace Machine

/-- A round of `allocate` finds its frames. -/
def AllocateRound (kernel : Bool) (cr3 : ℕ) (st : Machine × Option ℕ) (addr : ℕ) : Prop :=
  st.2 = none → (st.1.lock .frame).PageSupplied addr cr3 !kernel

/-- A round of `allocate_mem` finds its frames; a page reserved on demand needs only tables. -/
def AllocateMemRound (kernel : Bool) (cr3 : ℕ) (st : (AllocInfo × Machine) × Bool) (addr : ℕ) : Prop :=
  st.2 = false → (st.1.2.lock .frame).WalkSupplied addr cr3 (!kernel) ∧
    (st.1.1.aod = false → (st.1.2.lock .frame).PageSupplied addr cr3 !kernel)

/-- A round of `mem_change_type` finds its tables. -/
def ChangeRound (cr3 : ℕ) (st : Machine × Bool) (addr : ℕ) : Prop :=
  st.2 = false → st.1.WalkSupplied addr cr3 false

/-- A round of `map_range` finds the tables of its target and, in virtual memory, of its source. -/
def MapRound (start tostart : ℕ) (virtualMemory kernel : Bool) (cr3 : ℕ) (st : Machine × Option MapStop) (offs : ℕ) :
    Prop :=
  st.2 = none → st.1.WalkSupplied (add64 tostart offs) cr3 (!kernel) ∧
    (virtualMemory = true →
      (st.1.getPage (add64 tostart offs) cr3 true !kernel).2.WalkSupplied (add64 start offs) cr3 false)

/-- `allocate_mem` finds all its frames. -/
def AllocateMemSupplied (m : Machine) (ainfo : AllocInfo) (kernel readonly : Bool) (cr3 : ℕ) (stale : ℕ → ℕ) : Prop :=
  Guarded (allocateMemPage kernel readonly cr3 stale) (AllocateMemRound kernel cr3)
    (({ ainfo with
        start := align ainfo.start
        amount := pageAlignUp (add64 ainfo.amount (ainfo.start - align ainfo.start)) }, m), false)
    (allocatePages ainfo.start ainfo.amount)

/-- `page_fault` finds what it needs: a page reserved on demand a frame, and a page that was written
to a frame of the pool that is shared on copy, with another frame unless it is the last sharer. -/
def FaultSupplied (m : Machine) (address errcode : ℕ) (stale : ℕ → ℕ) : Prop :=
  ∀ p, (m.getPage address m.activePage false false).1 = some p →
    if !bit errcode 0 then
      (bit (m.load p) 1 && bit (m.load p) 3) = true →
        m.AllocateMemSupplied (demandRequest address) false false m.activePage stale
    else bit errcode 1 = true → ∃ fi, getFrameInfo m.framePool (align (m.load p)) = some fi ∧
      fi.cowCount ≠ 0 ∧ (fi.cowCount = 1 ∨ m.HasFrame)

end Machine

/-- The branch that goes wrong is not taken: no frame is asked of an exhausted pool, and no early
return of `page_fault` is reached. -/
def PagingCall.Supplied (m : Machine) : PagingCall → Prop
  | .allocate start amount kernel readonly cr3 =>
    Guarded (Machine.allocatePage kernel readonly cr3) (Machine.AllocateRound kernel cr3) (m, none)
      (Machine.allocatePages start amount)
  | .allocateMem ainfo kernel readonly cr3 stale => m.AllocateMemSupplied ainfo kernel readonly cr3 stale
  | .allocatePhysret blockAddr _ _ _ cr3 => m.PageSupplied blockAddr cr3 false
  | .createPml4 => m.HasFrame
  | .deallocate _ _ _ => True
  | .pageFault address errcode stale => m.FaultSupplied address errcode stale
  | .memChangeType start amount changeType newValue cr3 =>
    Guarded (Machine.changePage changeType newValue cr3) (Machine.ChangeRound cr3) (m.lock .tlb, false)
      (pageRange start (add64 start (pageAlignUp amount)))
  | .mapRange start endAddr tostart virtualMemory readonly kernel cr3 =>
    Guarded (Machine.mapPage start tostart virtualMemory readonly kernel cr3)
      (Machine.MapRound start tostart virtualMemory kernel cr3) (m.lock .tlb, none) (pageRange 0 (sub64 endAddr start))

/-- The call keeps the discipline: what it added to the log is disciplined. -/
def PagingCall.KeepsDiscipline (m : Machine) (c : PagingCall) : Prop :=
  ∃ events, (c.exec m).lockLog = m.lockLog ++ events ∧ Disciplined events

section Calls

variable {m : Machine}

/-- The events a call added decide whether it keeps the discipline. -/
theorem PagingCall.keepsDiscipline_iff {c : PagingCall} (events : List LockEvent)
    (hlog : (c.exec m).lockLog = m.lockLog ++ events) : c.KeepsDiscipline m ↔ Disciplined events := by
  constructor
  · rintro ⟨events', hlog', hdisc⟩
    rw [hlog] at hlog'
    rwa [List.append_cancel_left hlog']
  · exact fun hdisc => ⟨events, hlog, hdisc⟩

/-- A round of `allocate`: it goes on with the lock taken and released, stops without a frame with
the lock released already, or stops at a page mapped to frame zero with the lock still held. -/
theorem Machine.allocatePage_log {st : Machine × Option ℕ} (hpool : st.1.framePool ≠ []) (kernel readonly : Bool)
    (cr3 addr : ℕ) (hgo : ¬ st.2 ≠ none) :
    (Machine.allocatePage kernel readonly cr3 st addr).1.framePool ≠ [] ∧
      ((¬ (Machine.allocatePage kernel readonly cr3 st addr).2 ≠ none ∧ Machine.AllocateRound kernel cr3 st addr ∧
          (Machine.allocatePage kernel readonly cr3 st addr).1.lockLog =
            st.1.lockLog ++ [.lock .frame, .unlock .frame]) ∨
        ((Machine.allocatePage kernel readonly cr3 st addr).2 ≠ none ∧ ∃ tail,
          (¬ Machine.AllocateRound kernel cr3 st addr ∧ tail = [.lock .frame, .unlock .frame] ∨
            Machine.AllocateRound kernel cr3 st addr ∧ tail = [.lock .frame]) ∧
          (Machine.allocatePage kernel readonly cr3 st addr).1.lockLog = st.1.lockLog ++ tail)) := by
  have hnone : st.2 = none := not_ne_iff.mp hgo
  have hround : Machine.AllocateRound kernel cr3 st addr ↔ (st.1.lock .frame).PageSupplied addr cr3 !kernel :=
    ⟨fun h => h hnone, fun h _ => h⟩
  unfold Machine.allocatePage
  rw [if_neg hgo, hround]
  dsimp only
  have hlock : (st.1.lock .frame).lockLog = st.1.lockLog ++ [.lock .frame] := rfl
  rcases (st.1.lock .frame).getPage_outcome hpool addr cr3 (!kernel) with
    ⟨m₁, heq, hsup, hpool₁, hlog⟩ | ⟨p, m₁, heq, -, hpage, hpool₁, hlog⟩
  · rw [heq]
    refine ⟨hpool₁, Or.inr ⟨by simp, _, Or.inl ⟨fun h => hsup h.1, rfl⟩, ?_⟩⟩
    simp [hlog, hlock]
  · rw [heq, hpage]
    dsimp only
    rcases m₁.allocateFrame_outcome hpool₁ p kernel readonly false with
      ⟨m₂, heq₂, hsup, hpool₂, hlog₂⟩ | ⟨frame, m₂, heq₂, hsup, hpool₂, hlog₂⟩
    · rw [heq₂]
      refine ⟨hpool₂, Or.inr ⟨by simp, _, Or.inl ⟨hsup, rfl⟩, ?_⟩⟩
      simp [hlog₂, hlog, hlock]
    · rw [heq₂]
      by_cases hzero : frame = 0
      · rw [if_pos hzero]
        refine ⟨hpool₂, Or.inr ⟨by simp, _, Or.inr ⟨hsup, rfl⟩, ?_⟩⟩
        simp [hlog₂, hlog, hlock]
      · rw [if_neg hzero]
        refine ⟨hpool₂, Or.inl ⟨by simp, hsup, ?_⟩⟩
        simp [Machine.unlock, hlog₂, hlog, hlock]

/-- A round of `allocate_mem`: the lock is taken and released, and released once more without a frame. -/
theorem Machine.allocateMemPage_log {st : (AllocInfo × Machine) × Bool} (hpool : st.1.2.framePool ≠ [])
    (kernel readonly : Bool) (cr3 : ℕ) (stale : ℕ → ℕ) (addr : ℕ) (hgo : ¬ st.2 = true) :
    (Machine.allocateMemPage kernel readonly cr3 stale st addr).1.2.framePool ≠ [] ∧
      ((¬ (Machine.allocateMemPage kernel readonly cr3 stale st addr).2 = true ∧
          Machine.AllocateMemRound kernel cr3 st addr ∧
          (Machine.allocateMemPage kernel readonly cr3 stale st addr).1.2.lockLog =
            st.1.2.lockLog ++ [.lock .frame, .unlock .frame]) ∨
        ((Machine.allocateMemPage kernel readonly cr3 stale st addr).2 = true ∧ ∃ tail,
          (¬ Machine.AllocateMemRound kernel cr3 st addr ∧ tail = [.lock .frame, .unlock .frame, .unlock .frame] ∨
            Machine.AllocateMemRound kernel cr3 st addr ∧ tail = [.lock .frame, .unlock .frame]) ∧
          (Machine.allocateMemPage kernel readonly cr3 stale st addr).1.2.lockLog = st.1.2.lockLog ++ tail)) := by
  have hround : Machine.AllocateMemRound kernel cr3 st addr ↔
      (st.1.2.lock .frame).WalkSupplied addr cr3 (!kernel) ∧
        (st.1.1.aod = false → (st.1.2.lock .frame).PageSupplied addr cr3 !kernel) :=
    ⟨fun h => h (Bool.eq_false_iff.mpr hgo), fun h _ => h⟩
  unfold Machine.allocateMemPage
  rw [if_neg hgo, hround]
  dsimp only
  have hlock : (st.1.2.lock .frame).lockLog = st.1.2.lockLog ++ [.lock .frame] := rfl
  rcases (st.1.2.lock .frame).getPage_outcome hpool addr cr3 (!kernel) with
    ⟨m₁, heq, hsup, hpool₁, hlog⟩ | ⟨p, m₁, heq, hwalk, hpage, hpool₁, hlog⟩
  · rw [heq]
    refine ⟨hpool₁, Or.inr ⟨rfl, _, Or.inl ⟨fun h => hsup h.1, rfl⟩, ?_⟩⟩
    simp [Machine.unlock, hlog, hlock]
  · rw [heq, hpage]
    dsimp only
    by_cases haod : st.1.1.aod = true
    · rw [if_pos haod]
      refine ⟨hpool₁, Or.inl ⟨by simp, ⟨hwalk, fun hfalse => absurd (haod.symm.trans hfalse) (by decide)⟩, ?_⟩⟩
      simp [Machine.unlock, hlog, hlock]
    · rw [if_neg haod]
      have hfalse : st.1.1.aod = false := Bool.eq_false_iff.mpr haod
      rcases m₁.allocateFrame_outcome hpool₁ p kernel readonly st.1.1.exec with
        ⟨m₂, heq₂, hsup, hpool₂, hlog₂⟩ | ⟨frame, m₂, heq₂, hsup, hpool₂, hlog₂⟩
      · rw [heq₂]
        refine ⟨hpool₂, Or.inr ⟨rfl, _, Or.inl ⟨fun h => hsup (h.2 hfalse), rfl⟩, ?_⟩⟩
        simp [Machine.unlock, hlog₂, hlog, hlock]
      · rw [heq₂]
        by_cases hzero : frame = 0
        · rw [if_pos hzero]
          refine ⟨hpool₂, Or.inr ⟨rfl, _, Or.inr ⟨⟨hwalk, fun _ => hsup⟩, rfl⟩, ?_⟩⟩
          simp [Machine.unlock, hlog₂, hlog, hlock]
        · rw [if_neg hzero]
          refine ⟨hpool₂, Or.inl ⟨by simp, ⟨hwalk, fun _ => hsup⟩, ?_⟩⟩
          simp [Machine.unlock, hlog₂, hlog, hlock]

/-- A round of `mem_change_type` touches no lock, unless there is no frame for a table. -/
theorem Machine.changePage_log {st : Machine × Bool} (hpool : st.1.framePool ≠ []) (changeType : Machine.ChangeType)
    (newValue : Bool) (cr3 addr : ℕ) (hgo : ¬ st.2 = true) :
    (Machine.changePage changeType newValue cr3 st addr).1.framePool ≠ [] ∧
      ((¬ (Machine.changePage changeType newValue cr3 st addr).2 = true ∧ Machine.ChangeRound cr3 st addr ∧
          (Machine.changePage changeType newValue cr3 st addr).1.lockLog = st.1.lockLog ++ []) ∨
        ((Machine.changePage changeType newValue cr3 st addr).2 = true ∧ ∃ tail,
          (¬ Machine.ChangeRound cr3 st addr ∧ tail = [.unlock .frame]) ∧
          (Machine.changePage changeType newValue cr3 st addr).1.lockLog = st.1.lockLog ++ tail)) := by
  have hround : Machine.ChangeRound cr3 st addr ↔ st.1.WalkSupplied addr cr3 false :=
    ⟨fun h => h (Bool.eq_false_iff.mpr hgo), fun h _ => h⟩
  unfold Machine.changePage
  rw [if_neg hgo, hround]
  dsimp only
  rcases st.1.getPage_outcome hpool addr cr3 false with
    ⟨m₁, heq, hsup, hpool₁, hlog⟩ | ⟨p, m₁, heq, hwalk, -, hpool₁, hlog⟩
  · rw [heq]
    exact ⟨hpool₁, Or.inr ⟨rfl, _, ⟨hsup, rfl⟩, hlog⟩⟩
  · rw [heq, List.append_nil]
    dsimp only
    split
    · exact ⟨hpool₁, Or.inl ⟨by simp, hwalk, hlog⟩⟩
    · exact ⟨hpool₁, Or.inl ⟨by simp, hwalk, hlog⟩⟩

/-- A write to a frame record keeps the sections. -/
theorem setFrameInfo_ne_nil {pool : List SectionInfo} (h : pool ≠ []) (fa : ℕ) (f : FrameInfo → FrameInfo) :
    setFrameInfo pool fa f ≠ [] := by
  cases pool with
  | nil => exact absurd rfl h
  | cons s rest =>
    unfold setFrameInfo
    split <;> simp

/-- A round of `map_range`: in virtual memory the lock is taken and released. It stops at a source
without a frame with nothing logged, and without a frame for a table with the lock released. -/
theorem Machine.mapPage_log {st : Machine × Option Machine.MapStop} (hpool : st.1.framePool ≠ [])
    (start tostart : ℕ) (virtualMemory readonly kernel : Bool) (cr3 offs : ℕ) (hgo : ¬ st.2 ≠ none) :
    (Machine.mapPage start tostart virtualMemory readonly kernel cr3 st offs).1.framePool ≠ [] ∧
      ((¬ (Machine.mapPage start tostart virtualMemory readonly kernel cr3 st offs).2 ≠ none ∧
          Machine.MapRound start tostart virtualMemory kernel cr3 st offs ∧
          (Machine.mapPage start tostart virtualMemory readonly kernel cr3 st offs).1.lockLog =
            st.1.lockLog ++ if virtualMemory then [.lock .frame, .unlock .frame] else []) ∨
        ((Machine.mapPage start tostart virtualMemory readonly kernel cr3 st offs).2 ≠ none ∧ ∃ tail,
          (¬ Machine.MapRound start tostart virtualMemory kernel cr3 st offs ∧ tail = [.unlock .frame] ∨
            Machine.MapRound start tostart virtualMemory kernel cr3 st offs ∧ tail = [] ∧
              (Machine.mapPage start tostart virtualMemory readonly kernel cr3 st offs).2 = some (.failed offs)) ∧
          (Machine.mapPage start tostart virtualMemory readonly kernel cr3 st offs).1.lockLog =
            st.1.lockLog ++ tail)) := by
  have hround : Machine.MapRound start tostart virtualMemory kernel cr3 st offs ↔
      st.1.WalkSupplied (add64 tostart offs) cr3 (!kernel) ∧ (virtualMemory = true →
        (st.1.getPage (add64 tostart offs) cr3 true !kernel).2.WalkSupplied (add64 start offs) cr3 false) :=
    ⟨fun h => h (not_ne_iff.mp hgo), fun h _ => h⟩
  unfold Machine.mapPage
  rw [if_neg hgo, hround]
  dsimp only
  rcases st.1.getPage_outcome hpool (add64 tostart offs) cr3 (!kernel) with
    ⟨m₁, heq, hsup, hpool₁, hlog⟩ | ⟨p, m₁, heq, hwalk, -, hpool₁, hlog⟩
  · rw [heq]
    exact ⟨hpool₁, Or.inr ⟨by simp, _, Or.inl ⟨fun h => hsup h.1, rfl⟩, hlog⟩⟩
  rw [heq]
  dsimp only
  unfold Machine.mapSource
  cases virtualMemory with
  | false =>
    simp only [Bool.false_eq_true, if_false, List.append_nil]
    exact ⟨hpool₁, Or.inl ⟨by simp, ⟨hwalk, fun h => absurd h (by simp)⟩, hlog⟩⟩
  | true =>
    simp only [if_true]
    rcases m₁.getPage_outcome hpool₁ (add64 start offs) cr3 false with
      ⟨m₂, heq₂, hsup, hpool₂, hlog₂⟩ | ⟨source, m₂, heq₂, hwalk₂, -, hpool₂, hlog₂⟩
    · rw [heq₂]
      refine ⟨hpool₂, Or.inr ⟨by simp, _, Or.inl ⟨fun h => hsup (h.2 trivial), rfl⟩, ?_⟩⟩
      simp [hlog₂, hlog]
    · rw [heq₂]
      dsimp only
      by_cases hzero : align (m₂.load source) = 0
      · rw [if_pos hzero]
        exact ⟨hpool₂, Or.inr ⟨by simp, [], Or.inr ⟨⟨hwalk, fun _ => hwalk₂⟩, rfl, rfl⟩, by simp [hlog₂, hlog]⟩⟩
      · rw [if_neg hzero]
        refine ⟨?_, Or.inl ⟨by simp, ⟨hwalk, fun _ => hwalk₂⟩, ?_⟩⟩
        · exact setFrameInfo_ne_nil hpool₂ _ _
        · simp [Machine.store, Machine.unlock, Machine.lock, hlog₂, hlog]

end Calls

end Cthulhu
