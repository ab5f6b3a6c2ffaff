import Cthulhu.Cpus.MailboxSteps

/-!
# Runs of sends and handlers

A step of a handler belongs to the call whose message the CPU carries. With the steps of the sends,
every undisturbed move keeps the invariant of the mailboxes, and so does every run of such moves.
-/

namespace Cthulhu

open Lib

namespace Ipi

variable {n : ℕ} {s : Ipi n} {id : ℕ} {st : SendCall n}

/-- The acceptance of an interrupt. -/
theorem Inv.deliver (h : s.Inv) {d : Fin n} (hpending : (s.cpu d).pending = true) (hidle : (s.cpu d).irq = none) :
    (s.setCpu d { s.cpu d with pending := false, irq := some .entry }).Inv := by
  have hnot : ¬ (s.cpu d).Free := by
    rintro ⟨hclear, -⟩
    exact Bool.false_ne_true (hclear.symm.trans hpending)
  obtain ⟨id, st, hcall, rfl, hcarried⟩ := h.busy d hnot
  rw [setCpu_eq hcall]
  rcases hcarried.phase with ⟨hempty, hholds⟩ | ⟨-, hclear, -⟩
  · have hentry : IpiCpu.Holds { s.cpu st.target with pending := false, irq := some .entry } id st :=
      ⟨hholds.content, hholds.mailbox, Or.inr ⟨rfl, Or.inl rfl⟩⟩
    have hstatus := hcarried.status_of_holds (h.status id st hcall) hentry rfl hempty
    exact h.handle hcall rfl hcarried rfl rfl hstatus rfl
      (fun _ => ⟨hholds.content, hcarried.raised, Or.inl ⟨hempty, hentry⟩⟩)
  · exact absurd (hclear.symm.trans hpending) Bool.false_ne_true

/-- The steps of a handler that an interrupt started. -/
theorem Inv.irq (h : s.Inv) {d : Fin n} {pc : HandlerPc} (hirq : (s.cpu d).irq = some pc) :
    ((s.handlerStep d pc).1.setCpu d { (s.handlerStep d pc).1.cpu d with irq := (s.handlerStep d pc).2 }).Inv := by
  by_cases hhalted : pc = .halted
  · subst hhalted
    have hsame : { s.cpu d with irq := some .halted } = s.cpu d := by rw [← hirq]
    simp only [handlerStep]
    rw [hsame, setCpu_self]
    exact h
  have hnot : ¬ (s.cpu d).Free := by
    rintro ⟨-, hnone | hhalt⟩
    · exact Option.some_ne_none pc (hirq.symm.trans hnone)
    · exact hhalted (Option.some.inj (hirq.symm.trans hhalt))
  obtain ⟨id, st, hcall, rfl, hcarried⟩ := h.busy d hnot
  have hstatus := h.status id st hcall
  rcases hcarried.phase with ⟨hempty, hholds⟩ | ⟨hreceipts, hpend, hclear⟩
  · rcases hholds.phase with ⟨-, hnone | hhalt⟩ | ⟨hpend, hentry | hact⟩
    · exact absurd (hirq.symm.trans hnone) (Option.some_ne_none pc)
    · exact absurd (Option.some.inj (hirq.symm.trans hhalt)) hhalted
    · obtain rfl := Option.some.inj (hirq.symm.trans hentry)
      have hnext : IpiCpu.Holds { s.cpu st.target with irq := some (.act (s.cpu st.target).mailbox.messageType) } id st :=
        ⟨hholds.content, hholds.mailbox, Or.inr ⟨hpend, Or.inr (by rw [hholds.mailbox])⟩⟩
      simp only [handlerStep]
      rw [setCpu_eq hcall]
      exact h.handle hcall rfl hcarried rfl rfl (hcarried.status_of_holds hstatus hnext rfl hempty) rfl
        (fun _ => ⟨hholds.content, hcarried.raised, Or.inl ⟨hempty, hnext⟩⟩)
    · obtain rfl := Option.some.inj (hirq.symm.trans hact)
      have hstep := handlerStep_act hcall hholds.content hholds.mailbox hempty
      have hsettled := hcarried.settled hstatus
      by_cases hhalt : st.msg.messageType = .haltImmediately
      · rw [if_pos hhalt] at hstep
        simp only [hstep, put_cpu, put_setCpu]
        exact h.handle hcall rfl hcarried rfl rfl (hsettled.status _ id) rfl
          (fun hbusy => absurd ⟨hpend, Or.inr rfl⟩ hbusy)
      · rw [if_neg hhalt] at hstep
        simp only [hstep, put_cpu, put_setCpu]
        exact h.handle hcall rfl hcarried rfl rfl (hsettled.status _ id) rfl
          (fun _ => ⟨hholds.content, hcarried.raised, Or.inr ⟨rfl, hpend, rfl⟩⟩)
  · obtain rfl := Option.some.inj (hirq.symm.trans hclear)
    have hsettled := hcarried.settled hstatus
    rw [← hreceipts] at hsettled
    simp only [handlerStep, setCpu, Function.update_self, Function.update_idem]
    refine Eq.subst (setCpu_eq hcall ..).symm (h.handle hcall rfl hcarried rfl rfl (hsettled.status _ id) rfl ?_)
    exact fun hbusy => absurd ⟨hpend, Or.inl rfl⟩ hbusy

/-- A call that is made has nothing handled for it, and no lock. -/
theorem Inv.start (h : s.Inv) (hnew : s.call id = none) (sender target : Fin n) (wait : Bool) (msg : Message) :
    (s.setCall id ⟨sender, target, wait, msg, .check, []⟩).Inv := by
  have hcalls (i : ℕ) : (s.setCall id ⟨sender, target, wait, msg, .check, []⟩).call i =
      if i = id then some ⟨sender, target, wait, msg, .check, []⟩ else s.call i := Function.update_apply ..
  refine ⟨fun i sti hi => ?_, fun i sti hi hcritical => ?_, fun d hbusy => ?_⟩
  · rw [hcalls] at hi
    split at hi
    · obtain rfl := Option.some.inj hi
      exact rfl
    · exact h.status i sti hi
  · rw [hcalls] at hi
    split at hi
    · obtain rfl := Option.some.inj hi
      exact hcritical.elim
    · exact h.critical i sti hi hcritical
  · obtain ⟨i, sti, hi, htarget, hcarried⟩ := h.busy d hbusy
    have hne : i ≠ id := by
      rintro rfl
      exact Option.some_ne_none sti (hi.symm.trans hnew)
    exact ⟨i, sti, by rw [hcalls, if_neg hne, hi], htarget, hcarried⟩

/-- A CPU that is started keeps its message fields. -/
theorem Inv.boot (h : s.Inv) (d : Fin n) : (s.setCpu d { s.cpu d with started := true }).Inv := by
  have hcpu (e : Fin n) : (s.setCpu d { s.cpu d with started := true }).cpu e =
      if e = d then { s.cpu e with started := true } else s.cpu e := by
    simp only [setCpu, Function.update_apply]
    split
    · rename_i heq
      rw [heq]
    · rfl
  refine ⟨fun i sti hi => ?_, fun i sti hi hcritical => ?_, fun e hbusy => ?_⟩
  · have hstatus := h.status i sti hi
    rw [hcpu]
    split
    · exact hstatus.congr rfl rfl rfl rfl rfl
    · exact hstatus
  · have hheld := h.critical i sti hi hcritical
    rw [hcpu]
    split
    · exact hheld
    · exact hheld
  · have hnot : ¬ (s.cpu e).Free := by
      intro hfree
      rw [hcpu] at hbusy
      split at hbusy
      · exact hbusy hfree
      · exact hbusy hfree
    obtain ⟨i, sti, hi, htarget, hcarried⟩ := h.busy e hnot
    refine ⟨i, sti, hi, htarget, ?_⟩
    rw [hcpu]
    split
    · exact hcarried.mono hcarried.raised rfl rfl rfl rfl
    · exact hcarried

/-- Every undisturbed move keeps the invariant. -/
theorem Inv.step (h : s.Inv) (move : IpiMove n) (hguard : s.Undisturbed move) : (s.step move).Inv := by
  cases move with
  | start id sender target wait msg =>
    simp only [Ipi.step]
    split
    · rename_i hnew
      exact h.start hnew sender target wait msg
    · exact h
  | send id =>
    simp only [Ipi.step]
    split
    · exact h
    · rename_i st hcall
      cases hpc : st.pc with
      | check | lock =>
        rw [← hpc]
        exact h.sendStep_enter hcall (by simp [hpc]) (hguard st hcall)
      | flag | writeType | write1 | write2 | write3 =>
        rw [← hpc]
        exact h.sendStep_write hcall (by simp [hpc])
      | fire =>
        rw [← hpc]
        exact h.sendStep_fire hcall hpc
      | receive pc =>
        rw [← hpc]
        exact h.sendStep_receive hcall hpc
      | poll | unlock =>
        rw [← hpc]
        exact h.sendStep_leave hcall (by simp [hpc])
      | returned | refused => exact h
  | deliver d =>
    simp only [Ipi.step]
    split
    · rename_i hready
      exact h.deliver hready.1 hready.2
    · exact h
  | irq d =>
    simp only [Ipi.step]
    split
    · exact h
    · rename_i pc hirq
      exact h.irq hirq
  | boot d => exact h.boot d

/-- Where no message is on its way and no call was made, the invariant holds. -/
theorem Quiet.inv (h : s.Quiet) : s.Inv := by
  obtain ⟨hcalls, hfree⟩ := h
  refine ⟨fun id st hcall => ?_, fun id st hcall => ?_, fun d hbusy => absurd (hfree d).2 hbusy⟩
  · exact absurd (hcall.symm.trans (hcalls id)) (Option.some_ne_none st)
  · exact absurd (hcall.symm.trans (hcalls id)) (Option.some_ne_none st)

/-- The invariant is what the mailbox promises, and more. -/
theorem Inv.delivered (h : s.Inv) : s.Delivered := by
  refine ⟨fun id st hcall => ?_, fun id st hcall hpc hempty => ?_, fun id st hcall hwait hpc => ?_⟩
  · have hstatus := h.status id st hcall
    cases hpc : st.pc with
    | check | lock | refused => rw [hpc] at hstatus; exact Or.inl hstatus
    | flag | writeType => rw [hpc] at hstatus; exact Or.inl hstatus.1
    | write1 | write2 | write3 | fire => rw [hpc] at hstatus; exact Or.inl hstatus.1.1
    | receive pc =>
      rw [hpc] at hstatus
      cases pc with
      | entry => exact Or.inl hstatus.2.2.2
      | act messageType => exact Or.inl hstatus.2.2.2.1
      | clear | halted => exact Or.inr hstatus.2
    | poll => rw [hpc] at hstatus; exact hstatus.2.symm.imp_left fun hold => hold.1
    | unlock | returned => rw [hpc] at hstatus; exact (Or.symm hstatus).imp_left fun hold => hold.1
  · have hstatus := h.status id st hcall
    have hnot : st.receipts ≠ [st.msg] := by
      rw [hempty]
      exact (List.cons_ne_nil _ _).symm
    rcases hpc with hpc | hpc | hpc
    · rw [hpc] at hstatus
      exact (hstatus.2.resolve_left hnot).2.2
    · rw [hpc] at hstatus
      exact (Or.resolve_left hstatus hnot).2.2
    · rw [hpc] at hstatus
      exact (Or.resolve_left hstatus hnot).2.2
  · have hstatus := h.status id st hcall
    have hnot : ¬ st.wait = false := by
      rw [hwait]
      exact Bool.noConfusion
    rcases hpc with hpc | hpc
    · rw [hpc] at hstatus
      exact Or.resolve_right hstatus fun hold => hnot hold.2.1
    · rw [hpc] at hstatus
      exact Or.resolve_right hstatus fun hold => hnot hold.2.1

end Ipi

/-- In every interleaving in which a call takes the lock of a CPU only when no message is on its way to
it, every message is handled once and as it was sent, and `send_ipi_message` waits for its own. -/
theorem mailbox_delivers {n : ℕ} (s : Ipi n) (hquiet : s.Quiet) (moves : List (IpiMove n))
    (hmoves : Guarded Ipi.step Ipi.Undisturbed s moves) : (run Ipi.step s moves).Delivered :=
  (hmoves.invariant Ipi.Inv (fun _ move hinv hguard => hinv.step move hguard) hquiet.inv).delivered

/-- Two started CPUs, no call. -/
def twoMailboxes : Ipi 2 where
  cpu _ := ⟨true, none, false, ⟨.other 0, 0, 0, 0⟩, none, false, none⟩
  call _ := none

/-- CPU 0 sends CPU 1 a message and waits for it. -/
def waitingSend : List (IpiMove 2) :=
  .start 0 0 1 true ⟨.invldPml, 0x5000, 0, 0⟩ :: List.replicate 8 (.send 0) ++
    [.deliver 1, .irq 1, .irq 1, .irq 1, .send 0, .send 0]

theorem mailbox_delivers_waiting : (run Ipi.step twoMailboxes waitingSend).Delivered ∧
    (run Ipi.step twoMailboxes waitingSend).call 0 =
      some ⟨0, 1, true, ⟨.invldPml, 0x5000, 0, 0⟩, .returned, [⟨.invldPml, 0x5000, 0, 0⟩]⟩ :=
  ⟨mailbox_delivers twoMailboxes ⟨fun _ => rfl, by decide⟩ waitingSend (by decide +kernel), by decide +kernel⟩

/-- CPU 0 asks CPU 1 to run its scheduler without waiting, and then sends it another message, before
CPU 1 accepts an interrupt. -/
def overwritingSends : List (IpiMove 2) :=
  (.start 0 0 1 false ⟨.runScheduler, 0, 0, 0⟩ :: List.replicate 8 (.send 0)) ++
    (.start 1 0 1 true ⟨.invldPml, 0x5000, 0, 0⟩ :: List.replicate 8 (.send 1)) ++
      [.deliver 1, .irq 1, .irq 1, .irq 1, .send 1, .send 1]

/-- The first message is lost: both calls have returned, nothing is on its way, and only the second
message was handled. -/
theorem mailbox_overwritten : twoMailboxes.Quiet ∧
    (run Ipi.step twoMailboxes overwritingSends).call 0 = some ⟨0, 1, false, ⟨.runScheduler, 0, 0, 0⟩, .returned, []⟩ ∧
    ((run Ipi.step twoMailboxes overwritingSends).cpu 1).Free ∧ ¬ (run Ipi.step twoMailboxes overwritingSends).Delivered := by
  have hcall : (run Ipi.step twoMailboxes overwritingSends).call 0 =
      some ⟨0, 1, false, ⟨.runScheduler, 0, 0, 0⟩, .returned, []⟩ := by decide +kernel
  have hfree : ((run Ipi.step twoMailboxes overwritingSends).cpu 1).Free := by decide +kernel
  refine ⟨⟨fun _ => rfl, by decide⟩, hcall, hfree, fun hdelivered => ?_⟩
  exact (hdelivered.kept 0 _ hcall (Or.inr (Or.inr rfl)) rfl).not_free hfree

end Cthulhu
