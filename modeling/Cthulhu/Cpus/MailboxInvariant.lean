import Cthulhu.Cpus.Mailbox

/-!
# Messages under undisturbed sends

As long as a call takes the lock of a CPU only when no message is on its way to it, the fields of
the CPU belong to one call at a time: to the lock holder while it writes, and then to its message
until the handler has cleared the flag. What is known of a call at each place of its code depends
on the fields of its target alone, and a step changes one CPU and one call.
-/

namespace Cthulhu

open Lib

section Description

variable {n : ℕ}

/-- The places of a call between taking the lock and releasing it. -/
def SendPc.Critical : SendPc → Prop
  | .check | .lock | .returned | .refused => False
  | _ => True

/-- The message was handled, or its target holds it and the call does not wait for it. -/
def SendCall.Left (st : SendCall n) (v : IpiCpu) (id : ℕ) : Prop :=
  st.receipts = [st.msg] ∨ (st.receipts = [] ∧ st.wait = false ∧ v.Holds id st)

/-- A call that writes the fields: nothing was handled for it, its target is free, and where it waits
the flag is set. -/
def SendCall.Writes (st : SendCall n) (v : IpiCpu) : Prop :=
  st.receipts = [] ∧ v.Free ∧ (st.wait = true → v.handled = true)

/-- What is known of a call and the fields of its target at each place of its code. -/
def SendCall.Status (st : SendCall n) (v : IpiCpu) (id : ℕ) : SendPc → Prop
  | .check | .lock | .refused => st.receipts = []
  | .flag => st.receipts = [] ∧ v.Free
  | .writeType => st.Writes v
  | .write1 => st.Writes v ∧ v.content = some id ∧ v.mailbox.messageType = st.msg.messageType
  | .write2 => st.Writes v ∧ v.content = some id ∧ v.mailbox.messageType = st.msg.messageType ∧
      v.mailbox.message = st.msg.message
  | .write3 => st.Writes v ∧ v.content = some id ∧ v.mailbox.messageType = st.msg.messageType ∧
      v.mailbox.message = st.msg.message ∧ v.mailbox.message2 = st.msg.message2
  | .fire => st.Writes v ∧ v.content = some id ∧ v.mailbox = st.msg
  | .receive .entry => v.Free ∧ v.content = some id ∧ v.mailbox = st.msg ∧ st.receipts = []
  | .receive (.act t) => v.Free ∧ v.content = some id ∧ v.mailbox = st.msg ∧ st.receipts = [] ∧ t = st.msg.messageType
  | .receive _ => v.Free ∧ st.receipts = [st.msg]
  | .poll => st.wait = true ∧ (st.receipts = [st.msg] ∨ (st.receipts = [] ∧ v.handled = true ∧ v.Holds id st))
  | .unlock | .returned => st.Left v id

/-- The message that makes a CPU busy: it is still to be handled, or its handler has to clear the flag. -/
structure SendCall.Carried (st : SendCall n) (v : IpiCpu) (id : ℕ) : Prop where
  content : v.content = some id
  raised : st.pc = .poll ∨ st.pc = .unlock ∨ st.pc = .returned
  phase : (st.receipts = [] ∧ v.Holds id st) ∨
    (st.receipts = [st.msg] ∧ v.pending = false ∧ v.irq = some .clear)

/-- A call whose status depends on no CPU: it has not begun, or its message was handled. -/
def SendCall.Settled (st : SendCall n) : Prop :=
  ((st.pc = .check ∨ st.pc = .lock ∨ st.pc = .refused) ∧ st.receipts = []) ∨
    ((st.pc = .poll ∧ st.wait = true ∨ st.pc = .unlock ∨ st.pc = .returned) ∧ st.receipts = [st.msg])

/-- A settled call has its status, whatever its target does. -/
theorem SendCall.Settled.status {st : SendCall n} (h : st.Settled) (v : IpiCpu) (id : ℕ) : st.Status v id st.pc := by
  rcases h with ⟨hpc | hpc | hpc, hreceipts⟩ | ⟨⟨hpc, hwait⟩ | hpc | hpc, hreceipts⟩
  · rw [hpc]; exact hreceipts
  · rw [hpc]; exact hreceipts
  · rw [hpc]; exact hreceipts
  · rw [hpc]; exact ⟨hwait, Or.inl hreceipts⟩
  · rw [hpc]; exact Or.inl hreceipts
  · rw [hpc]; exact Or.inl hreceipts

/-- A CPU that holds a message is not free. -/
theorem IpiCpu.Holds.not_free {v : IpiCpu} {id : ℕ} {st : SendCall n} (h : v.Holds id st) : ¬ v.Free := by
  rintro ⟨hpending, hirq⟩
  rcases h.phase with ⟨hpend, -⟩ | ⟨-, hbusy⟩
  · exact absurd (hpending.symm.trans hpend) (by decide)
  · rcases hirq with hnone | hhalted
    · rcases hbusy with hb | hb
      · exact absurd (hnone.symm.trans hb) (by simp)
      · exact absurd (hnone.symm.trans hb) (by simp)
    · rcases hbusy with hb | hb
      · exact absurd (hhalted.symm.trans hb) (by simp)
      · exact absurd (hhalted.symm.trans hb) (by simp)

/-- A CPU that carries a message is not free. -/
theorem SendCall.Carried.not_free {v : IpiCpu} {id : ℕ} {st : SendCall n} (h : st.Carried v id) : ¬ v.Free := by
  rcases h.phase with ⟨-, hholds⟩ | ⟨-, -, hclear⟩
  · exact hholds.not_free
  · rintro ⟨-, hnone | hhalted⟩
    · exact absurd (hnone.symm.trans hclear) (by simp)
    · exact absurd (hhalted.symm.trans hclear) (by simp)

/-- The lock and the started mark are no part of a status. -/
theorem SendCall.Status.congr {st : SendCall n} {v v' : IpiCpu} {id : ℕ} {pc : SendPc} (h : st.Status v id pc)
    (hhandled : v'.handled = v.handled) (hmailbox : v'.mailbox = v.mailbox) (hcontent : v'.content = v.content)
    (hpending : v'.pending = v.pending) (hirq : v'.irq = v.irq) : st.Status v' id pc := by
  obtain ⟨started, lock, handled, mailbox, content, pending, irq⟩ := v
  obtain ⟨started', lock', handled', mailbox', content', pending', irq'⟩ := v'
  dsimp only at hhandled hmailbox hcontent hpending hirq
  subst hhandled hmailbox hcontent hpending hirq
  have hholds (hold : (IpiCpu.mk started lock handled' mailbox' content' pending' irq').Holds id st) :
      (IpiCpu.mk started' lock' handled' mailbox' content' pending' irq').Holds id st :=
    ⟨hold.content, hold.mailbox, hold.phase⟩
  cases pc with
  | poll => exact ⟨h.1, h.2.imp_right fun hold => ⟨hold.1, hold.2.1, hholds hold.2.2⟩⟩
  | unlock => exact h.imp_right fun hold => ⟨hold.1, hold.2.1, hholds hold.2.2⟩
  | returned => exact h.imp_right fun hold => ⟨hold.1, hold.2.1, hholds hold.2.2⟩
  | receive pc => cases pc <;> exact h
  | _ => exact h

end Description

/-- The statuses hold, a call between taking and releasing a lock holds it, and a CPU that is not free
carries the message of a call. -/
structure Ipi.Inv {n : ℕ} (s : Ipi n) : Prop where
  status : ∀ id st, s.call id = some st → st.Status (s.cpu st.target) id st.pc
  critical : ∀ id st, s.call id = some st → st.pc.Critical → (s.cpu st.target).ipiLock = some id
  busy : ∀ d, ¬ (s.cpu d).Free → ∃ id st, s.call id = some st ∧ st.target = d ∧ st.Carried (s.cpu d) id

namespace Ipi

variable {n : ℕ} {s : Ipi n} {id : ℕ} {st : SendCall n}

/-- The state with one CPU and one call replaced. -/
def put (s : Ipi n) (d : Fin n) (v : IpiCpu) (id : ℕ) (st : SendCall n) : Ipi n :=
  ⟨Function.update s.cpu d v, Function.update s.call id (some st)⟩

/-- The calls to a free CPU whose lock they do not hold are settled. -/
theorem Inv.settled_of_free (h : s.Inv) {d : Fin n} (hlock : ∀ id', id' ≠ id → (s.cpu d).ipiLock ≠ some id')
    (hfree : (s.cpu d).Free) {id' : ℕ} {st' : SendCall n} (hne : id' ≠ id) (hcall : s.call id' = some st')
    (htarget : st'.target = d) : st'.Settled := by
  have hstatus := h.status id' st' hcall
  have hout : ¬ st'.pc.Critical := by
    intro hcritical
    have hheld := h.critical id' st' hcall hcritical
    rw [htarget] at hheld
    exact hlock id' hne hheld
  rw [htarget] at hstatus
  unfold SendCall.Settled
  cases hpc : st'.pc with
  | check => rw [hpc] at hstatus; exact Or.inl ⟨Or.inl rfl, hstatus⟩
  | lock => rw [hpc] at hstatus; exact Or.inl ⟨Or.inr (Or.inl rfl), hstatus⟩
  | refused => rw [hpc] at hstatus; exact Or.inl ⟨Or.inr (Or.inr rfl), hstatus⟩
  | returned =>
    rw [hpc] at hstatus
    rcases hstatus with hhandled | ⟨-, -, hholds⟩
    · exact Or.inr ⟨Or.inr (Or.inr rfl), hhandled⟩
    · exact absurd hfree hholds.not_free
  | _ =>
    rw [hpc] at hout
    exact absurd trivial hout

/-- While a CPU carries the message of a call, the other calls to it are settled. -/
theorem Inv.settled_of_carried (h : s.Inv) {d : Fin n} (hcarried : st.Carried (s.cpu d) id) {id' : ℕ}
    {st' : SendCall n} (hne : id' ≠ id) (hcall : s.call id' = some st') (htarget : st'.target = d) : st'.Settled := by
  have hstatus := h.status id' st' hcall
  rw [htarget] at hstatus
  have hnot (hholds : (s.cpu d).Holds id' st') : False :=
    hne (Option.some.inj (hholds.content.symm.trans hcarried.content))
  unfold SendCall.Settled
  cases hpc : st'.pc with
  | check => rw [hpc] at hstatus; exact Or.inl ⟨Or.inl rfl, hstatus⟩
  | lock => rw [hpc] at hstatus; exact Or.inl ⟨Or.inr (Or.inl rfl), hstatus⟩
  | refused => rw [hpc] at hstatus; exact Or.inl ⟨Or.inr (Or.inr rfl), hstatus⟩
  | poll =>
    rw [hpc] at hstatus
    exact Or.inr ⟨Or.inl ⟨rfl, hstatus.1⟩, hstatus.2.resolve_right fun hold => hnot hold.2.2⟩
  | unlock =>
    rw [hpc] at hstatus
    exact Or.inr ⟨Or.inr (Or.inl rfl), hstatus.resolve_right fun hold => hnot hold.2.2⟩
  | returned =>
    rw [hpc] at hstatus
    exact Or.inr ⟨Or.inr (Or.inr rfl), hstatus.resolve_right fun hold => hnot hold.2.2⟩
  | flag => rw [hpc] at hstatus; exact absurd hstatus.2 hcarried.not_free
  | writeType => rw [hpc] at hstatus; exact absurd hstatus.2.1 hcarried.not_free
  | write1 => rw [hpc] at hstatus; exact absurd hstatus.1.2.1 hcarried.not_free
  | write2 => rw [hpc] at hstatus; exact absurd hstatus.1.2.1 hcarried.not_free
  | write3 => rw [hpc] at hstatus; exact absurd hstatus.1.2.1 hcarried.not_free
  | fire => rw [hpc] at hstatus; exact absurd hstatus.1.2.1 hcarried.not_free
  | receive pc =>
    rw [hpc] at hstatus
    have hfree : (s.cpu d).Free := by cases pc <;> exact hstatus.1
    exact absurd hfree hcarried.not_free

/-- A step that changes one call and its target keeps the invariant if the call and the others to the
same CPU keep their statuses. -/
theorem Inv.put (h : s.Inv) {d : Fin n} {v : IpiCpu} {st' : SendCall n} (hcall : s.call id = some st)
    (htarget : st.target = d) (htarget' : st'.target = d) (hstatus : st'.Status v id st'.pc)
    (hothers : ∀ id' st'', id' ≠ id → s.call id' = some st'' → st''.target = d → st''.Status v id' st''.pc)
    (hcritical : st'.pc.Critical → v.ipiLock = some id)
    (hlock : ∀ id', id' ≠ id → (s.cpu d).ipiLock = some id' → v.ipiLock = some id')
    (hbusy : ¬ v.Free → st'.Carried v id ∨
      ∃ id' st'', id' ≠ id ∧ s.call id' = some st'' ∧ st''.target = d ∧ st''.Carried v id') :
    (s.put d v id st').Inv := by
  have hcpu (e : Fin n) : (s.put d v id st').cpu e = if e = d then v else s.cpu e := Function.update_apply ..
  have hcalls (i : ℕ) : (s.put d v id st').call i = if i = id then some st' else s.call i := Function.update_apply ..
  refine ⟨fun i sti hi => ?_, fun i sti hi hcrit => ?_, fun e he => ?_⟩
  · rw [hcalls] at hi
    split at hi
    · rename_i heq
      obtain rfl := Option.some.inj hi
      rw [hcpu, if_pos htarget', heq]
      exact hstatus
    · rename_i hne
      rw [hcpu]
      split
      · rename_i hd
        exact hothers i sti hne hi hd
      · exact h.status i sti hi
  · rw [hcalls] at hi
    split at hi
    · rename_i heq
      obtain rfl := Option.some.inj hi
      rw [hcpu, if_pos htarget', heq]
      exact hcritical hcrit
    · rename_i hne
      have hheld := h.critical i sti hi hcrit
      rw [hcpu]
      split
      · rename_i hd
        rw [hd] at hheld
        exact hlock i hne hheld
      · exact hheld
  · rw [hcpu] at he ⊢
    split at he
    · rename_i heq
      rw [if_pos heq]
      rcases hbusy he with hown | ⟨i, sti, hne, hi, htgt, hcarried⟩
      · exact ⟨id, st', by rw [hcalls, if_pos rfl], htarget'.trans heq.symm, hown⟩
      · exact ⟨i, sti, by rw [hcalls, if_neg hne, hi], htgt.trans heq.symm, hcarried⟩
    · rename_i hne
      rw [if_neg hne]
      obtain ⟨i, sti, hi, htgt, hcarried⟩ := h.busy e he
      have hid : i ≠ id := by
        rintro rfl
        obtain rfl := Option.some.inj (hcall.symm.trans hi)
        exact hne (htgt.symm.trans htarget)
      exact ⟨i, sti, by rw [hcalls, if_neg hid, hi], htgt, hcarried⟩

end Ipi

end Cthulhu
