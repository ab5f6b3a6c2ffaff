import Cthulhu.Memory.LockCalls

/-!
# Lock discipline of the paging interface

Each of the eight functions keeps the discipline exactly when it never asks an exhausted pool for
a frame and, for `page_fault`, the write branch finds a frame that is shared on copy. Without a
frame the lock is released inside `get_free_frame` and again by the caller, or without ever having
been taken; the early returns of `page_fault` leave one lock or both behind.
-/

namespace Cthulhu

open Lib

section Calls

variable {m : Machine}

/-- `allocate` keeps the discipline exactly when every page finds its frames. -/
theorem Machine.allocate_discipline (hpool : m.framePool ≠ []) (start amount : ℕ) (kernel readonly : Bool) (cr3 : ℕ) :
    (PagingCall.allocate start amount kernel readonly cr3).KeepsDiscipline m ↔
      (PagingCall.allocate start amount kernel readonly cr3).Supplied m := by
  obtain ⟨k, hcases⟩ := run_log_of_stop (Machine.allocatePage kernel readonly cr3)
    (Machine.AllocateRound kernel cr3) (fun st => st.1.framePool ≠ []) (fun st => st.2 ≠ none)
    (fun st => st.1.lockLog) [.lock .frame, .unlock .frame]
    (fun _ guard tail => ¬ guard ∧ tail = [.lock .frame, .unlock .frame] ∨ guard ∧ tail = [.lock .frame])
    (fun st a hstop => ⟨if_pos hstop, fun hnone => absurd hnone hstop⟩) (fun st a hst => by
      by_cases hgo : st.2 ≠ none
      · rwa [show Machine.allocatePage kernel readonly cr3 st a = st from if_pos hgo]
      · exact (Machine.allocatePage_log hst kernel readonly cr3 a hgo).1)
    (fun st a hst hgo => (Machine.allocatePage_log hst kernel readonly cr3 a hgo).2) (s := (m, none)) hpool (by simp)
    (Machine.allocatePages start amount)
  have hexec : (PagingCall.allocate start amount kernel readonly cr3).exec m =
      (m.allocate start amount kernel readonly cr3).2 := rfl
  have hsupplied : (PagingCall.allocate start amount kernel readonly cr3).Supplied m =
      Guarded (Machine.allocatePage kernel readonly cr3) (Machine.AllocateRound kernel cr3) (m, none)
        (Machine.allocatePages start amount) := rfl
  rw [hsupplied]
  unfold Machine.allocate at hexec
  dsimp only at hexec hcases
  generalize run (Machine.allocatePage kernel readonly cr3) (m, none)
    (Machine.allocatePages start amount) = st at *
  rcases hcases with ⟨hgo, hall, hlog⟩ | ⟨hstop, tail, hends, hlog⟩
  · rw [not_ne_iff.mp hgo] at hexec
    rw [PagingCall.keepsDiscipline_iff _ (by rw [hexec]; exact hlog)]
    exact ⟨fun _ => hall, fun _ => Disciplined.pairs k⟩
  · obtain ⟨addr, haddr⟩ := Option.ne_none_iff_exists'.mp hstop
    rw [haddr] at hexec
    obtain ⟨events, hback, hdisc⟩ := (st.1.unlock .frame).deallocate_log (align start) (addr - align start) cr3
    have hwhole : ((PagingCall.allocate start amount kernel readonly cr3).exec m).lockLog =
        m.lockLog ++ (framePairs k ++ (tail ++ (.unlock .frame :: events))) := by
      rw [hexec]
      dsimp only
      rw [hback]
      simp only [Machine.unlock, hlog, framePairs, List.append_assoc, List.cons_append, List.nil_append]
    rw [PagingCall.keepsDiscipline_iff _ hwhole]
    rcases hends with ⟨hnot, rfl⟩ | ⟨hall, rfl⟩
    · refine ⟨fun h => absurd h ?_, fun h => absurd h hnot⟩
      have hbad := not_disciplined_unlock ((Disciplined.pairs k).append Disciplined.pair) events
      rwa [List.append_assoc] at hbad
    · exact ⟨fun _ => hall, fun _ => (Disciplined.pairs k).append (Disciplined.pair.append hdisc)⟩

/-- What `allocate_mem` adds to the log is disciplined exactly when it finds its frames. -/
theorem Machine.allocateMem_log (hpool : m.framePool ≠ []) (ainfo : AllocInfo) (kernel readonly : Bool) (cr3 : ℕ)
    (stale : ℕ → ℕ) : ∃ events, (m.allocateMem ainfo kernel readonly cr3 stale).2.lockLog = m.lockLog ++ events ∧
      (Disciplined events ↔ m.AllocateMemSupplied ainfo kernel readonly cr3 stale) := by
  unfold Machine.AllocateMemSupplied Machine.allocateMem
  dsimp only
  generalize ({ ainfo with
    start := align ainfo.start
    amount := pageAlignUp (add64 ainfo.amount (ainfo.start - align ainfo.start)) } : AllocInfo) = aligned
  obtain ⟨k, hcases⟩ := run_log_of_stop (Machine.allocateMemPage kernel readonly cr3 stale)
    (Machine.AllocateMemRound kernel cr3) (fun st => st.1.2.framePool ≠ []) (fun st => st.2 = true)
    (fun st => st.1.2.lockLog) [.lock .frame, .unlock .frame]
    (fun _ guard tail => ¬ guard ∧ tail = [.lock .frame, .unlock .frame, .unlock .frame] ∨
      guard ∧ tail = [.lock .frame, .unlock .frame])
    (fun st a hstop => ⟨if_pos hstop, fun hfalse => absurd (hstop.symm.trans hfalse) (by decide)⟩)
    (fun st a hst => by
      by_cases hgo : st.2 = true
      · rwa [show Machine.allocateMemPage kernel readonly cr3 stale st a = st from if_pos hgo]
      · exact (Machine.allocateMemPage_log hst kernel readonly cr3 stale a hgo).1)
    (fun st a hst hgo => (Machine.allocateMemPage_log hst kernel readonly cr3 stale a hgo).2)
    (s := ((aligned, m), false)) hpool (by simp) (Machine.allocatePages ainfo.start ainfo.amount)
  generalize run (Machine.allocateMemPage kernel readonly cr3 stale) ((aligned, m), false)
    (Machine.allocatePages ainfo.start ainfo.amount) = st at *
  rcases hcases with ⟨hgo, hall, hlog⟩ | ⟨hstop, tail, hends, hlog⟩
  · rw [if_neg hgo]
    exact ⟨_, hlog, fun _ => hall, fun _ => Disciplined.pairs k⟩
  · rw [if_pos hstop]
    refine ⟨_, hlog, ?_⟩
    rcases hends with ⟨hnot, rfl⟩ | ⟨hall, rfl⟩
    · refine ⟨fun h => absurd h ?_, fun h => absurd h hnot⟩
      have hbad := not_disciplined_unlock ((Disciplined.pairs k).append Disciplined.pair) []
      rwa [List.append_assoc] at hbad
    · exact ⟨fun _ => hall, fun _ => (Disciplined.pairs k).append Disciplined.pair⟩

/-- `mem_change_type` keeps the discipline exactly when every table finds a frame. -/
theorem Machine.memChangeType_discipline (hpool : m.framePool ≠ []) (start amount : ℕ)
    (changeType : Machine.ChangeType) (newValue : Bool) (cr3 : ℕ) :
    (PagingCall.memChangeType start amount changeType newValue cr3).KeepsDiscipline m ↔
      (PagingCall.memChangeType start amount changeType newValue cr3).Supplied m := by
  obtain ⟨k, hcases⟩ := run_log_of_stop (Machine.changePage changeType newValue cr3) (Machine.ChangeRound cr3)
    (fun st => st.1.framePool ≠ []) (fun st => st.2 = true) (fun st => st.1.lockLog) []
    (fun _ guard tail => ¬ guard ∧ tail = [.unlock .frame])
    (fun st a hstop => ⟨if_pos hstop, fun hfalse => absurd (hstop.symm.trans hfalse) (by decide)⟩)
    (fun st a hst => by
      by_cases hgo : st.2 = true
      · rwa [show Machine.changePage changeType newValue cr3 st a = st from if_pos hgo]
      · exact (Machine.changePage_log hst changeType newValue cr3 a hgo).1)
    (fun st a hst hgo => (Machine.changePage_log hst changeType newValue cr3 a hgo).2)
    (s := (m.lock .tlb, false)) hpool (by simp) (pageRange start (add64 start (pageAlignUp amount)))
  have hexec : (PagingCall.memChangeType start amount changeType newValue cr3).exec m =
      (m.memChangeType start amount changeType newValue cr3).2 := rfl
  have hsupplied : (PagingCall.memChangeType start amount changeType newValue cr3).Supplied m =
      Guarded (Machine.changePage changeType newValue cr3) (Machine.ChangeRound cr3) (m.lock .tlb, false)
        (pageRange start (add64 start (pageAlignUp amount))) := rfl
  rw [hsupplied]
  unfold Machine.memChangeType at hexec
  dsimp only at hexec hcases
  generalize run (Machine.changePage changeType newValue cr3) (m.lock .tlb, false)
    (pageRange start (add64 start (pageAlignUp amount))) = st at *
  have hlock : (m.lock .tlb).lockLog = m.lockLog ++ [.lock .tlb] := rfl
  have hnone : (List.replicate k ([] : List LockEvent)).flatten = [] := by simp
  rw [hlock, hnone] at hcases
  rcases hcases with ⟨hgo, hall, hlog⟩ | ⟨hstop, tail, ⟨hnot, rfl⟩, hlog⟩
  · rw [if_neg hgo] at hexec
    rw [PagingCall.keepsDiscipline_iff (.lock .tlb :: ([] ++ [.unlock .tlb]))
      (by rw [hexec]; simp [Machine.unlock, hlog])]
    exact ⟨fun _ => hall, fun _ => Disciplined.nil.withTlb⟩
  · rw [if_pos hstop] at hexec
    rw [PagingCall.keepsDiscipline_iff [.lock .tlb, .unlock .frame] (by rw [hexec]; simp [hlog])]
    exact ⟨fun h => absurd h (not_disciplined_tlb rfl), fun h => absurd h hnot⟩

/-- The rounds of `map_range` that went on are disciplined. -/
theorem Disciplined.mapRounds (k : ℕ) (virtualMemory : Bool) :
    Disciplined (List.replicate k (if virtualMemory then [.lock .frame, .unlock .frame] else [])).flatten := by
  cases virtualMemory with
  | true => exact Disciplined.pairs k
  | false => simpa using Disciplined.nil

/-- `map_range` keeps the discipline exactly when every table finds a frame. -/
theorem Machine.mapRange_discipline (hpool : m.framePool ≠ []) (start endAddr tostart : ℕ)
    (virtualMemory readonly kernel : Bool) (cr3 : ℕ) :
    (PagingCall.mapRange start endAddr tostart virtualMemory readonly kernel cr3).KeepsDiscipline m ↔
      (PagingCall.mapRange start endAddr tostart virtualMemory readonly kernel cr3).Supplied m := by
  obtain ⟨k, hcases⟩ := run_log_of_stop (Machine.mapPage start tostart virtualMemory readonly kernel cr3)
    (Machine.MapRound start tostart virtualMemory kernel cr3) (fun st => st.1.framePool ≠ [])
    (fun st => st.2 ≠ none) (fun st => st.1.lockLog) (if virtualMemory then [.lock .frame, .unlock .frame] else [])
    (fun st guard tail => ¬ guard ∧ tail = [.unlock .frame] ∨ guard ∧ tail = [] ∧ ∃ offs, st.2 = some (.failed offs))
    (fun st a hstop => ⟨if_pos hstop, fun hnone => absurd hnone hstop⟩) (fun st a hst => by
      by_cases hgo : st.2 ≠ none
      · rwa [show Machine.mapPage start tostart virtualMemory readonly kernel cr3 st a = st from if_pos hgo]
      · exact (Machine.mapPage_log hst start tostart virtualMemory readonly kernel cr3 a hgo).1)
    (fun st a hst hgo => by
      refine (Machine.mapPage_log hst start tostart virtualMemory readonly kernel cr3 a hgo).2.imp_right ?_
      rintro ⟨hstop, tail, hends, hlog⟩
      exact ⟨hstop, tail, hends.imp_right (And.imp_right (And.imp_right fun heq => ⟨a, heq⟩)), hlog⟩)
    (s := (m.lock .tlb, none)) hpool (by simp) (pageRange 0 (sub64 endAddr start))
  have hrounds := Disciplined.mapRounds k virtualMemory
  have hexec : (PagingCall.mapRange start endAddr tostart virtualMemory readonly kernel cr3).exec m =
      (m.mapRange start endAddr tostart virtualMemory readonly kernel cr3).2 := rfl
  have hsupplied : (PagingCall.mapRange start endAddr tostart virtualMemory readonly kernel cr3).Supplied m =
      Guarded (Machine.mapPage start tostart virtualMemory readonly kernel cr3)
        (Machine.MapRound start tostart virtualMemory kernel cr3) (m.lock .tlb, none)
        (pageRange 0 (sub64 endAddr start)) := rfl
  rw [hsupplied]
  unfold Machine.mapRange at hexec
  dsimp only at hexec hcases
  generalize run (Machine.mapPage start tostart virtualMemory readonly kernel cr3) (m.lock .tlb, none)
    (pageRange 0 (sub64 endAddr start)) = st at *
  generalize (List.replicate k (if virtualMemory then [LockEvent.lock .frame, .unlock .frame] else [])).flatten =
    rounds at *
  have hlock : (m.lock .tlb).lockLog = m.lockLog ++ [.lock .tlb] := rfl
  rw [hlock] at hcases
  rcases hcases with ⟨hgo, hall, hlog⟩ | ⟨hstop, tail, ⟨hnot, rfl⟩ | ⟨hall, rfl, offs, hfailed⟩, hlog⟩
  · rw [not_ne_iff.mp hgo] at hexec
    rw [PagingCall.keepsDiscipline_iff (.lock .tlb :: (rounds ++ [.unlock .tlb]))
      (by rw [hexec]; simp [Machine.unlock, hlog])]
    exact ⟨fun _ => hall, fun _ => hrounds.withTlb⟩
  · obtain ⟨rest, hwhole⟩ : ∃ rest, ((PagingCall.mapRange start endAddr tostart virtualMemory readonly kernel
        cr3).exec m).lockLog = m.lockLog ++ (.lock .tlb :: (rounds ++ .unlock .frame :: rest)) := by
      rw [hexec]
      cases hst : st.2 with
      | none => exact absurd hst hstop
      | some stop =>
        cases stop with
        | failed offs => exact ⟨[.unlock .tlb], by simp [Machine.unlock, hlog]⟩
        | faulted offs => exact ⟨[], by simp [hlog]⟩
    rw [PagingCall.keepsDiscipline_iff _ hwhole]
    refine ⟨fun h => ?_, fun h => absurd h hnot⟩
    have howned : FrameOwned false (rounds ++ .unlock .frame :: rest) := h.owned
    have hlast := ((frameOwned_append false rounds _).mp howned).2
    rw [hrounds.released] at hlast
    exact absurd hlast.1 (by decide)
  · rw [hfailed] at hexec
    rw [PagingCall.keepsDiscipline_iff (.lock .tlb :: (rounds ++ [.unlock .tlb]))
      (by rw [hexec]; simp [Machine.unlock, hlog])]
    exact ⟨fun _ => hall, fun _ => hrounds.withTlb⟩

/-- `allocate_physret` takes no lock, so it must not need a frame that is not there. -/
theorem Machine.allocatePhysret_discipline (hpool : m.framePool ≠ []) (blockAddr : ℕ) (kernel rw exec : Bool)
    (cr3 : ℕ) : (PagingCall.allocatePhysret blockAddr kernel rw exec cr3).KeepsDiscipline m ↔
      (PagingCall.allocatePhysret blockAddr kernel rw exec cr3).Supplied m := by
  have hexec : (PagingCall.allocatePhysret blockAddr kernel rw exec cr3).exec m =
      (m.allocatePhysret blockAddr kernel rw exec cr3).2 := rfl
  have hsupplied : (PagingCall.allocatePhysret blockAddr kernel rw exec cr3).Supplied m =
      m.PageSupplied blockAddr cr3 false := rfl
  have hbad : ¬ Disciplined [.unlock .frame] := not_disciplined_unlock Disciplined.nil []
  rw [hsupplied]
  unfold Machine.allocatePhysret at hexec
  dsimp only at hexec
  rcases m.getPage_outcome hpool blockAddr cr3 false with
    ⟨m₁, heq, hsup, -, hlog⟩ | ⟨p, m₁, heq, -, hpage, hpool₁, hlog⟩
  · rw [heq] at hexec
    rw [PagingCall.keepsDiscipline_iff _ (by rw [hexec]; exact hlog)]
    exact ⟨fun h => absurd h hbad, fun h => absurd h.1 hsup⟩
  · rw [heq] at hexec
    dsimp only at hexec
    rw [hpage]
    rcases m₁.allocateFrame_outcome hpool₁ p kernel rw exec with
      ⟨m₂, heq₂, hsup, -, hlog₂⟩ | ⟨frame, m₂, heq₂, hsup, -, hlog₂⟩
    · rw [heq₂] at hexec
      rw [PagingCall.keepsDiscipline_iff [.unlock .frame] (by rw [hexec, hlog₂, hlog])]
      exact ⟨fun h => absurd h hbad, fun h => absurd h hsup⟩
    · rw [heq₂] at hexec
      rw [PagingCall.keepsDiscipline_iff [] (by rw [hexec, hlog₂, hlog, List.append_nil])]
      exact ⟨fun _ => hsup, fun _ => .nil⟩

/-- `create_pml4` keeps the discipline exactly when there is a frame for the root. -/
theorem Machine.createPml4_discipline (hpool : m.framePool ≠ []) :
    PagingCall.createPml4.KeepsDiscipline m ↔ PagingCall.createPml4.Supplied m := by
  have hexec : PagingCall.createPml4.exec m = m.createPml4.2 := rfl
  have hsupplied : PagingCall.createPml4.Supplied m = ((Cthulhu.getFreeFrame m.framePool).1 ≠ 0) := rfl
  rw [hsupplied]
  unfold Machine.createPml4 at hexec
  dsimp only at hexec
  rw [Machine.getFreeFrame_eq (show (m.lock .frame).framePool ≠ [] from hpool)] at hexec
  have hframe : (m.lock .frame).framePool = m.framePool := rfl
  rw [hframe] at hexec
  by_cases hzero : (Cthulhu.getFreeFrame m.framePool).1 = 0
  · simp only [hzero, if_true] at hexec
    rw [PagingCall.keepsDiscipline_iff [.lock .frame, .unlock .frame, .unlock .frame]
      (by rw [hexec]; simp [Machine.unlock, Machine.lock])]
    exact ⟨fun h => absurd h (not_disciplined_unlock Disciplined.pair []), fun h => absurd hzero h⟩
  · simp only [hzero, if_false] at hexec
    rw [PagingCall.keepsDiscipline_iff [.lock .frame, .unlock .frame]
      (by rw [hexec]; simp [Machine.unlock, Machine.lock, Machine.fill])]
    exact ⟨fun _ => hzero, fun _ => .pair⟩

/-- The write branch of `page_fault`: every return but the two that found a shared frame, and the
copy without a frame, leave the translation lock held. -/
theorem Machine.pageFault_write_log (hpool : m.framePool ≠ []) (address errcode : ℕ) (stale : ℕ → ℕ) {p : Slot}
    (hp : (m.getPage address m.activePage false false).1 = some p) (hpresent : bit errcode 0 = true)
    (hwrite : bit errcode 1 = true) :
    ∃ events, (m.pageFault address errcode stale).2.lockLog = m.lockLog ++ events ∧
      (Disciplined events ↔ ∃ fi, getFrameInfo m.framePool (align (m.load p)) = some fi ∧
        fi.cowCount ≠ 0 ∧ (fi.cowCount = 1 ∨ m.HasFrame)) := by
  have hgood : Disciplined [.lock .tlb, .lock .frame, .unlock .frame, .unlock .tlb] := Disciplined.pair.withTlb
  have hheld : ¬ Disciplined [.lock .tlb, .lock .frame, .unlock .frame] := not_disciplined_tlb rfl
  have hpool' : ((m.lock .tlb).lock .frame).framePool = m.framePool := rfl
  unfold Machine.pageFault Machine.HasFrame
  dsimp only
  rw [hp]
  simp only [hpresent, hwrite, Bool.not_true, Bool.false_eq_true, if_false, if_true]
  rw [hpool']
  cases hinfo : getFrameInfo m.framePool (align (m.load p)) with
  | none =>
    refine ⟨[.lock .tlb, .lock .frame], by simp [Machine.lock], fun h => absurd h (not_disciplined_tlb rfl), ?_⟩
    rintro ⟨fi, hfi, -⟩
    exact absurd hfi (by simp)
  | some fi =>
    have hiff : (∃ fi', some fi = some fi' ∧ fi'.cowCount ≠ 0 ∧
        (fi'.cowCount = 1 ∨ (Cthulhu.getFreeFrame m.framePool).1 ≠ 0)) ↔
        fi.cowCount ≠ 0 ∧ (fi.cowCount = 1 ∨ (Cthulhu.getFreeFrame m.framePool).1 ≠ 0) := by
      simp only [Option.some.injEq, exists_eq_left']
    rw [hiff]
    dsimp only
    by_cases hzero : fi.cowCount = 0
    · rw [if_pos hzero]
      refine ⟨[.lock .tlb, .lock .frame, .unlock .frame], by simp [Machine.lock, Machine.unlock],
        fun h => absurd h hheld, fun h => absurd hzero h.1⟩
    rw [if_neg hzero]
    by_cases hone : fi.cowCount = 1
    · rw [if_pos hone]
      refine ⟨[.lock .tlb, .lock .frame, .unlock .frame, .unlock .tlb],
        by simp [Machine.lock, Machine.unlock, Machine.store], fun _ => ⟨hzero, Or.inl hone⟩, fun _ => hgood⟩
    rw [if_neg hone, Machine.getFreeFrame_eq (show ((m.lock .tlb).lock .frame).framePool ≠ [] from hpool), hpool']
    by_cases hframe : (Cthulhu.getFreeFrame m.framePool).1 = 0
    · rw [if_pos hframe, if_pos rfl]
      refine ⟨[.lock .tlb, .lock .frame, .unlock .frame], by simp [Machine.lock, Machine.unlock],
        fun h => absurd h hheld, fun h => absurd h.2 ?_⟩
      simp [hone, hframe]
    · rw [if_neg hframe]
      dsimp only
      rw [if_neg hframe]
      refine ⟨[.lock .tlb, .lock .frame, .unlock .frame, .unlock .tlb],
        by simp [Machine.lock, Machine.unlock, Machine.store], fun _ => ⟨hzero, Or.inr hframe⟩, fun _ => hgood⟩

/-- `page_fault` keeps the discipline exactly when it finds what it needs. -/
theorem Machine.pageFault_discipline (hpool : m.framePool ≠ []) (address errcode : ℕ) (stale : ℕ → ℕ) :
    (PagingCall.pageFault address errcode stale).KeepsDiscipline m ↔
      (PagingCall.pageFault address errcode stale).Supplied m := by
  have hexec : (PagingCall.pageFault address errcode stale).exec m = (m.pageFault address errcode stale).2 := rfl
  have hsupplied : (PagingCall.pageFault address errcode stale).Supplied m = m.FaultSupplied address errcode stale := rfl
  have hquiet (hsame : (m.pageFault address errcode stale).2 = m) :
      (PagingCall.pageFault address errcode stale).KeepsDiscipline m := ⟨[], by rw [hexec, hsame]; simp, .nil⟩
  rw [hsupplied]
  unfold Machine.FaultSupplied
  cases hp : (m.getPage address m.activePage false false).1 with
  | none =>
    refine ⟨fun _ p hsome => absurd hsome (by simp), fun _ => hquiet ?_⟩
    unfold Machine.pageFault
    dsimp only
    rw [hp]
  | some p =>
    simp only [Option.some.injEq, forall_eq']
    cases hpresent : bit errcode 0 with
    | true =>
      simp only [Bool.not_true, Bool.false_eq_true, if_false]
      cases hwrite : bit errcode 1 with
      | true =>
        obtain ⟨events, hlog, hiff⟩ := Machine.pageFault_write_log hpool address errcode stale hp hpresent hwrite
        rw [PagingCall.keepsDiscipline_iff events (by rw [hexec, hlog]), hiff]
        exact ⟨fun h _ => h, fun h => h rfl⟩
      | false =>
        refine ⟨fun _ h => absurd h (by simp), fun _ => hquiet ?_⟩
        unfold Machine.pageFault
        dsimp only
        rw [hp]
        simp only [hpresent, hwrite, Bool.not_true, Bool.false_eq_true, if_false]
    | false =>
      simp only [Bool.not_false, if_true]
      cases hdemand : bit (m.load p) 1 && bit (m.load p) 3 with
      | true =>
        obtain ⟨events, hlog, hiff⟩ := m.allocateMem_log hpool (Machine.demandRequest address) false false
          m.activePage stale
        have hwhole : ((PagingCall.pageFault address errcode stale).exec m).lockLog = m.lockLog ++ events := by
          rw [hexec, ← hlog]
          unfold Machine.pageFault
          dsimp only
          rw [hp]
          simp only [hpresent, hdemand, Bool.not_false, if_true]
        rw [PagingCall.keepsDiscipline_iff events hwhole, hiff]
        exact ⟨fun h _ => h, fun h => h rfl⟩
      | false =>
        refine ⟨fun _ h => absurd h (by simp), fun _ => hquiet ?_⟩
        unfold Machine.pageFault
        dsimp only
        rw [hp]
        simp only [hpresent, hdemand, Bool.not_false, if_true, Bool.false_eq_true, if_false]

end Calls

/-- The lock theorem: once there is a pool, in every state and for every argument, a call returns
with neither lock held, releases each as often as it acquired it and never releases the frame lock
without holding it, exactly when no frame is asked of an exhausted pool and no early return of
`page_fault` is reached. -/
theorem paging_lock_discipline (m : Machine) (hpool : m.framePool ≠ []) (c : PagingCall) :
    c.KeepsDiscipline m ↔ c.Supplied m := by
  cases c with
  | allocate start amount kernel readonly cr3 =>
    exact Machine.allocate_discipline hpool start amount kernel readonly cr3
  | allocateMem ainfo kernel readonly cr3 stale =>
    obtain ⟨events, hlog, hiff⟩ := m.allocateMem_log hpool ainfo kernel readonly cr3 stale
    rw [PagingCall.keepsDiscipline_iff (m := m) (c := .allocateMem ainfo kernel readonly cr3 stale) events hlog, hiff]
    rfl
  | allocatePhysret blockAddr kernel rw exec cr3 =>
    exact Machine.allocatePhysret_discipline hpool blockAddr kernel rw exec cr3
  | createPml4 => exact Machine.createPml4_discipline hpool
  | deallocate start amount cr3 => exact ⟨fun _ => trivial, fun _ => m.deallocate_log start amount cr3⟩
  | pageFault address errcode stale => exact Machine.pageFault_discipline hpool address errcode stale
  | memChangeType start amount changeType newValue cr3 =>
    exact Machine.memChangeType_discipline hpool start amount changeType newValue cr3
  | mapRange start endAddr tostart virtualMemory readonly kernel cr3 =>
    exact Machine.mapRange_discipline hpool start endAddr tostart virtualMemory readonly kernel cr3

/-- A machine with one section and a read-only page at address zero; `head` is its free stack. -/
def readOnlyMachine (head : Option ℕ) : Machine where
  framePool := [{
    head := head
    frameArray := fun i => ⟨0, 0, i⟩
    elements := fun i => ⟨0x200000 + 0x1000 * i, i, none⟩
    startWord := 0x200000
    endWord := 0x210000
    totalFrames := 16 }]
  memory := fun table i => if i = 0 ∧ table < 0x204000 then table + 0x1005 else 0
  activePage := 0x200000
  memMirrorPresent := true
  tmpHeap := 0
  lockLog := []

/-- The lock theorem where a root can be made. -/
theorem paging_lock_discipline_root :
    PagingCall.createPml4.KeepsDiscipline (readOnlyMachine (some 5)) ↔
      PagingCall.createPml4.Supplied (readOnlyMachine (some 5)) :=
  paging_lock_discipline (readOnlyMachine (some 5)) (List.cons_ne_nil _ _) .createPml4

/-- A write to a read-only page returns with the translation lock held, and making a root without a
frame releases the frame lock twice. -/
theorem paging_lock_kept :
    ¬ (PagingCall.pageFault 0 3 (fun _ => 0)).KeepsDiscipline (readOnlyMachine (some 5)) ∧
      ¬ PagingCall.createPml4.KeepsDiscipline (readOnlyMachine none) := by
  constructor
  · have hlog : ((PagingCall.pageFault 0 3 fun _ => 0).exec (readOnlyMachine (some 5))).lockLog =
        (readOnlyMachine (some 5)).lockLog ++ [.lock .tlb, .lock .frame, .unlock .frame] := by decide +kernel
    rw [PagingCall.keepsDiscipline_iff _ hlog]
    exact not_disciplined_tlb rfl
  · have hlog : (PagingCall.createPml4.exec (readOnlyMachine none)).lockLog =
        (readOnlyMachine none).lockLog ++ [.lock .frame, .unlock .frame, .unlock .frame] := by decide +kernel
    rw [PagingCall.keepsDiscipline_iff _ hlog]
    exact not_disciplined_unlock Disciplined.pair []

end Cthulhu
