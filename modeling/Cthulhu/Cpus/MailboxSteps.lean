import Cthulhu.Cpus.MailboxInvariant

/-!
# The steps of a send

A step of a call that has the lock of a free CPU changes fields that no other call depends on, and
the steps before the lock is taken and after the message was handled leave the message fields
alone. All of them keep the invariant of the mailboxes.
-/

namespace Cthulhu

open Lib

section Raised

variable {n : ℕ} {v v' : IpiCpu} {id : ℕ} {st : SendCall n}

/-- A carried message that goes on to be held gives its call the same status. -/
theorem SendCall.Carried.status_of_holds (h : st.Carried v id) (hstatus : st.Status v id st.pc)
    (hholds : v'.Holds id st) (hhandled : v'.handled = v.handled) (hempty : st.receipts = []) :
    st.Status v' id st.pc := by
  have hnot : st.receipts ≠ [st.msg] := by rw [hempty]; exact List.cons_ne_nil _ _ |>.symm
  rcases h.raised with hpc | hpc | hpc
  · rw [hpc] at hstatus ⊢
    have hold := hstatus.2.resolve_left hnot
    exact ⟨hstatus.1, Or.inr ⟨hempty, hhandled.trans hold.2.1, hholds⟩⟩
  · rw [hpc] at hstatus ⊢
    have hold := Or.resolve_left hstatus hnot
    exact Or.inr ⟨hempty, hold.2.1, hholds⟩
  · rw [hpc] at hstatus ⊢
    have hold := Or.resolve_left hstatus hnot
    exact Or.inr ⟨hempty, hold.2.1, hholds⟩

/-- A carried message that is handled settles its call. -/
theorem SendCall.Carried.settled (h : st.Carried v id) (hstatus : st.Status v id st.pc) :
    SendCall.Settled { st with receipts := [st.msg] } := by
  rcases h.raised with hpc | hpc | hpc
  · rw [hpc] at hstatus
    exact Or.inr ⟨Or.inl ⟨hpc, hstatus.1⟩, rfl⟩
  · exact Or.inr ⟨Or.inr (Or.inl hpc), rfl⟩
  · exact Or.inr ⟨Or.inr (Or.inr hpc), rfl⟩

/-- A raised call has its message out or is back. -/
theorem SendCall.Carried.mono (h : st.Carried v id) {pc : SendPc} (hpc : pc = .poll ∨ pc = .unlock ∨ pc = .returned)
    (hmailbox : v'.mailbox = v.mailbox) (hcontent : v'.content = v.content) (hpending : v'.pending = v.pending)
    (hirq : v'.irq = v.irq) : SendCall.Carried { st with pc := pc } v' id := by
  refine ⟨hcontent.trans h.content, hpc, ?_⟩
  rcases h.phase with ⟨hempty, hholds⟩ | ⟨hreceipts, hpend, hclear⟩
  · have hphase := hholds.phase
    rw [← hpending, ← hirq] at hphase
    exact Or.inl ⟨hempty, hcontent.trans hholds.content, hmailbox.trans hholds.mailbox, hphase⟩
  · exact Or.inr ⟨hreceipts, hpending.trans hpend, hirq.trans hclear⟩

end Raised

namespace Ipi

variable {n : ℕ} {s : Ipi n} {id : ℕ} {st : SendCall n}

/-- Replacing a CPU and moving a call on. -/
theorem setCpu_goto (hcall : s.call id = some st) (d : Fin n) (v : IpiCpu) (pc : SendPc) :
    (s.setCpu d v).goto id pc = s.put d v id { st with pc := pc } := by
  have hkept : (s.setCpu d v).call id = some st := hcall
  unfold goto
  rw [hkept]
  rfl

/-- Moving a call on. -/
theorem goto_eq (hcall : s.call id = some st) (d : Fin n) (pc : SendPc) :
    s.goto id pc = s.put d (s.cpu d) id { st with pc := pc } := by
  unfold goto
  rw [hcall]
  unfold put
  rw [Function.update_eq_self]
  rfl

/-- Replacing a CPU alone. -/
theorem setCpu_eq (hcall : s.call id = some st) (d : Fin n) (v : IpiCpu) : s.setCpu d v = s.put d v id st := by
  unfold put
  rw [← hcall, Function.update_eq_self]
  rfl

/-- Replacing a CPU by itself. -/
theorem setCpu_self (s : Ipi n) (d : Fin n) : s.setCpu d (s.cpu d) = s := by
  unfold setCpu
  rw [Function.update_eq_self]

/-- Moving on a call that was replaced. -/
theorem put_goto (s : Ipi n) (d : Fin n) (v : IpiCpu) (id : ℕ) (st : SendCall n) (pc : SendPc) :
    (s.put d v id st).goto id pc = s.put d v id { st with pc := pc } := by
  have hcall : (s.put d v id st).call id = some st := Function.update_self ..
  unfold goto
  rw [hcall]
  simp only [put, setCall, Function.update_idem]

/-- The CPU that was replaced. -/
theorem put_cpu (s : Ipi n) (d : Fin n) (v : IpiCpu) (id : ℕ) (st : SendCall n) : (s.put d v id st).cpu d = v :=
  Function.update_self ..

/-- Replacing a CPU that was replaced. -/
theorem put_setCpu (s : Ipi n) (d : Fin n) (v v' : IpiCpu) (id : ℕ) (st : SendCall n) :
    (s.put d v id st).setCpu d v' = s.put d v' id st := by
  simp only [put, setCpu, Function.update_idem]

/-- A handler that acts on the message of a call handles it on behalf of that call. -/
theorem handlerStep_act {d : Fin n} (hcall : s.call id = some st) (hcontent : (s.cpu d).content = some id)
    (hmailbox : (s.cpu d).mailbox = st.msg) (hempty : st.receipts = []) :
    s.handlerStep d (.act st.msg.messageType) =
      if st.msg.messageType = .haltImmediately then
        (s.put d { s.cpu d with handled := false } id { st with receipts := [st.msg] }, some .halted)
      else (s.put d (s.cpu d) id { st with receipts := [st.msg] }, some .clear) := by
  have hreceipt : s.receipt d st.msg = s.put d (s.cpu d) id { st with receipts := [st.msg] } := by
    unfold receipt
    rw [hcontent]
    simp only [hcall, hempty, List.nil_append, setCall, put, Function.update_eq_self]
  have hsame : { (s.cpu d).mailbox with messageType := st.msg.messageType } = st.msg := by rw [hmailbox]
  simp only [handlerStep]
  rw [hsame, hreceipt, put_cpu, put_setCpu]

/-- A call that has the lock of a free CPU, or takes it, may change the CPU and itself. -/
theorem Inv.write (h : s.Inv) (hcall : s.call id = some st) {v : IpiCpu} {st' : SendCall n}
    (hown : ∀ id', id' ≠ id → (s.cpu st.target).ipiLock ≠ some id') (hfree : (s.cpu st.target).Free)
    (htarget : st'.target = st.target) (hstatus : st'.Status v id st'.pc) (hlock : v.ipiLock = some id)
    (hbusy : ¬ v.Free → st'.Carried v id) : (s.put st.target v id st').Inv :=
  h.put hcall rfl htarget hstatus
    (fun id' _ hne hcall' htarget' => (h.settled_of_free hown hfree hne hcall' htarget').status v id')
    (fun _ => hlock) (fun id' hne hheld => absurd hheld (hown id' hne)) (fun hnot => Or.inl (hbusy hnot))

/-- A call that leaves the message fields of its target alone may move on. -/
theorem Inv.keep (h : s.Inv) (hcall : s.call id = some st) {v : IpiCpu} {pc : SendPc}
    (hstatus : SendCall.Status { st with pc := pc } v id pc) (hhandled : v.handled = (s.cpu st.target).handled)
    (hmailbox : v.mailbox = (s.cpu st.target).mailbox) (hcontent : v.content = (s.cpu st.target).content)
    (hpending : v.pending = (s.cpu st.target).pending) (hirq : v.irq = (s.cpu st.target).irq)
    (hcritical : pc.Critical → v.ipiLock = some id)
    (hlock : ∀ id', id' ≠ id → (s.cpu st.target).ipiLock = some id' → v.ipiLock = some id')
    (hraised : st.pc = .poll ∨ st.pc = .unlock ∨ st.pc = .returned → pc = .poll ∨ pc = .unlock ∨ pc = .returned) :
    (s.put st.target v id { st with pc := pc }).Inv := by
  refine h.put hcall rfl rfl hstatus ?_ hcritical hlock ?_
  · intro id' st' _ hcall' htarget
    have hother := h.status id' st' hcall'
    rw [htarget] at hother
    exact hother.congr hhandled hmailbox hcontent hpending hirq
  · intro hbusy
    have hnot : ¬ (s.cpu st.target).Free := by
      rintro ⟨hpend, hidle⟩
      refine hbusy ⟨hpending.trans hpend, ?_⟩
      rw [hirq]
      exact hidle
    obtain ⟨id', st', hcall', htarget, hcarried⟩ := h.busy _ hnot
    by_cases hid : id' = id
    · subst hid
      obtain rfl := Option.some.inj (hcall.symm.trans hcall')
      exact Or.inl (hcarried.mono (hraised hcarried.raised) hmailbox hcontent hpending hirq)
    · have hkept := hcarried.mono hcarried.raised hmailbox hcontent hpending hirq
      exact Or.inr ⟨id', st', hid, hcall', htarget, hkept⟩

/-- A handler may change the CPU whose message it carries, and the call of the message. -/
theorem Inv.handle (h : s.Inv) {d : Fin n} (hcall : s.call id = some st) (htarget : st.target = d)
    (hcarried : st.Carried (s.cpu d) id) {v : IpiCpu} {st' : SendCall n} (hsame : st'.target = st.target)
    (hpc : st'.pc = st.pc) (hstatus : st'.Status v id st'.pc) (hlock : v.ipiLock = (s.cpu d).ipiLock)
    (hbusy : ¬ v.Free → st'.Carried v id) : (s.put d v id st').Inv := by
  refine h.put hcall htarget (hsame.trans htarget) hstatus ?_ ?_ ?_ (fun hnot => Or.inl (hbusy hnot))
  · intro id' st'' hne hcall' htarget'
    exact (h.settled_of_carried hcarried hne hcall' htarget').status v id'
  · intro hcritical
    rw [hpc] at hcritical
    rw [hlock, ← htarget]
    exact h.critical id st hcall hcritical
  · intro id' _ hheld
    rw [hlock]
    exact hheld

/-- A call between taking and releasing the lock is its only holder. -/
theorem Inv.own (h : s.Inv) (hcall : s.call id = some st) (hcritical : st.pc.Critical) :
    (s.cpu st.target).ipiLock = some id ∧ ∀ id', id' ≠ id → (s.cpu st.target).ipiLock ≠ some id' := by
  have hheld := h.critical id st hcall hcritical
  refine ⟨hheld, fun id' hne heq => hne ?_⟩
  exact (Option.some.inj (hheld.symm.trans heq)).symm

/-- The steps of a call before it has the lock. -/
theorem Inv.sendStep_enter (h : s.Inv) (hcall : s.call id = some st) (hpc : st.pc = .check ∨ st.pc = .lock)
    (hguard : st.pc = .lock → (s.cpu st.target).ipiLock = none → (s.cpu st.target).Free) :
    (s.sendStep id st st.pc).Inv := by
  have hstatus := h.status id st hcall
  rcases hpc with hpc | hpc
  · rw [hpc] at hstatus ⊢
    have hmove (pc : SendPc) (hnext : pc = .lock ∨ pc = .refused) : (s.goto id pc).Inv := by
      rw [goto_eq hcall st.target]
      refine h.keep hcall ?_ rfl rfl rfl rfl rfl ?_ (fun _ _ hheld => hheld) ?_
      · rcases hnext with rfl | rfl
        · exact hstatus
        · exact hstatus
      · rcases hnext with rfl | rfl
        · exact False.elim
        · exact False.elim
      · rw [hpc]
        rintro (heq | heq | heq) <;> exact SendPc.noConfusion heq
    simp only [sendStep]
    split
    · exact hmove .lock (Or.inl rfl)
    · exact hmove .refused (Or.inr rfl)
  · rw [hpc] at hstatus
    have hguard := hguard hpc
    rw [hpc]
    simp only [sendStep]
    split
    · rename_i hnone
      have hfree := hguard hnone
      have hown (id' : ℕ) (_ : id' ≠ id) : (s.cpu st.target).ipiLock ≠ some id' := by
        rw [hnone]
        exact (Option.some_ne_none id').symm
      rw [setCpu_goto hcall]
      refine h.write hcall hown hfree rfl ?_ rfl (fun hnot => absurd hfree hnot)
      split
      · exact ⟨hstatus, hfree⟩
      · rename_i hnowait
        exact ⟨hstatus, hfree, fun hwait => absurd (Or.inl hwait) hnowait⟩
    · exact h

/-- The steps of a call that writes the flag and the fields. -/
theorem Inv.sendStep_write (h : s.Inv) (hcall : s.call id = some st)
    (hpc : st.pc = .flag ∨ st.pc = .writeType ∨ st.pc = .write1 ∨ st.pc = .write2 ∨ st.pc = .write3) :
    (s.sendStep id st st.pc).Inv := by
  have hstatus := h.status id st hcall
  have hcritical : st.pc.Critical := by
    rcases hpc with hpc | hpc | hpc | hpc | hpc <;> rw [hpc] <;> exact trivial
  obtain ⟨hheld, hown⟩ := h.own hcall hcritical
  rcases hpc with hpc | hpc | hpc | hpc | hpc
  · rw [hpc] at hstatus ⊢
    obtain ⟨hempty, hfree⟩ := hstatus
    simp only [sendStep]
    rw [setCpu_goto hcall]
    exact h.write hcall hown hfree rfl ⟨hempty, hfree, fun _ => rfl⟩ hheld (fun hnot => absurd hfree hnot)
  · rw [hpc] at hstatus ⊢
    have hfree := hstatus.2.1
    simp only [sendStep]
    rw [setCpu_goto hcall]
    exact h.write hcall hown hfree rfl ⟨hstatus, rfl, rfl⟩ hheld (fun hnot => absurd hfree hnot)
  · rw [hpc] at hstatus ⊢
    obtain ⟨hwrites, hcontent, htype⟩ := hstatus
    have hfree := hwrites.2.1
    simp only [sendStep]
    rw [setCpu_goto hcall]
    exact h.write hcall hown hfree rfl ⟨hwrites, hcontent, htype, rfl⟩ hheld (fun hnot => absurd hfree hnot)
  · rw [hpc] at hstatus ⊢
    obtain ⟨hwrites, hcontent, htype, hmessage⟩ := hstatus
    have hfree := hwrites.2.1
    simp only [sendStep]
    rw [setCpu_goto hcall]
    exact h.write hcall hown hfree rfl ⟨hwrites, hcontent, htype, hmessage, rfl⟩ hheld (fun hnot => absurd hfree hnot)
  · rw [hpc] at hstatus ⊢
    obtain ⟨hwrites, hcontent, htype, hmessage, hmessage2⟩ := hstatus
    have hfree := hwrites.2.1
    have hmailbox : { (s.cpu st.target).mailbox with message3 := st.msg.message3 } = st.msg := by
      rw [Message.mk.injEq]
      exact ⟨htype, hmessage, hmessage2, rfl⟩
    simp only [sendStep]
    rw [setCpu_goto hcall]
    refine h.write hcall hown hfree rfl ?_ hheld (fun hnot => absurd hfree hnot)
    split
    · exact ⟨hfree, hcontent, hmailbox, hwrites.1⟩
    · exact ⟨hwrites, hcontent, hmailbox⟩

/-- The interrupt is raised: the target now carries the message. -/
theorem Inv.sendStep_fire (h : s.Inv) (hcall : s.call id = some st) (hpc : st.pc = .fire) :
    (s.sendStep id st st.pc).Inv := by
  have hstatus := h.status id st hcall
  obtain ⟨hheld, hown⟩ := h.own hcall (by rw [hpc]; exact trivial)
  rw [hpc] at hstatus ⊢
  obtain ⟨⟨hempty, hfree, hflag⟩, hcontent, hmailbox⟩ := hstatus
  simp only [sendStep]
  rw [setCpu_goto hcall]
  have hholds (pc : SendPc) : IpiCpu.Holds { s.cpu st.target with pending := true } id { st with pc := pc } :=
    ⟨hcontent, hmailbox, Or.inl ⟨rfl, hfree.2⟩⟩
  refine h.write hcall hown hfree rfl ?_ hheld (fun _ => ⟨hcontent, ?_, Or.inl ⟨hempty, hholds _⟩⟩)
  · split
    · rename_i hwait
      exact ⟨hwait, Or.inr ⟨hempty, hflag hwait, hholds _⟩⟩
    · rename_i hnowait
      exact Or.inr ⟨hempty, Bool.eq_false_of_not_eq_true hnowait, hholds _⟩
  · split
    · exact Or.inl rfl
    · exact Or.inr (Or.inl rfl)

/-- The steps of a handler that is called directly. -/
theorem Inv.sendStep_receive (h : s.Inv) (hcall : s.call id = some st) {pc : HandlerPc} (hpc : st.pc = .receive pc) :
    (s.sendStep id st st.pc).Inv := by
  have hstatus := h.status id st hcall
  obtain ⟨hheld, hown⟩ := h.own hcall (by rw [hpc]; exact trivial)
  rw [hpc] at hstatus ⊢
  cases pc with
  | entry =>
    obtain ⟨hfree, hcontent, hmailbox, hempty⟩ := hstatus
    simp only [sendStep, handlerStep]
    rw [goto_eq hcall st.target]
    refine h.write hcall hown hfree rfl ⟨hfree, hcontent, hmailbox, hempty, ?_⟩ hheld (fun hnot => absurd hfree hnot)
    rw [hmailbox]
  | act messageType =>
    obtain ⟨hfree, hcontent, hmailbox, hempty, rfl⟩ := hstatus
    have hact := handlerStep_act hcall hcontent hmailbox hempty
    by_cases hhalt : st.msg.messageType = .haltImmediately
    · rw [if_pos hhalt] at hact
      simp only [sendStep, hact, put_goto]
      exact h.write hcall hown hfree rfl ⟨hfree, rfl⟩ hheld (fun hnot => absurd hfree hnot)
    · rw [if_neg hhalt] at hact
      simp only [sendStep, hact, put_goto]
      exact h.write hcall hown hfree rfl ⟨hfree, rfl⟩ hheld (fun hnot => absurd hfree hnot)
  | clear =>
    obtain ⟨hfree, hreceipts⟩ := hstatus
    simp only [sendStep, handlerStep]
    rw [setCpu_goto hcall]
    exact h.write hcall hown hfree rfl (Or.inl hreceipts) hheld (fun hnot => absurd hfree hnot)
  | halted =>
    obtain ⟨hfree, hreceipts⟩ := hstatus
    simp only [sendStep, handlerStep]
    rw [goto_eq hcall st.target]
    exact h.write hcall hown hfree rfl ⟨hfree, hreceipts⟩ hheld (fun hnot => absurd hfree hnot)

/-- The steps of a call that waits for the flag and releases the lock. -/
theorem Inv.sendStep_leave (h : s.Inv) (hcall : s.call id = some st) (hpc : st.pc = .poll ∨ st.pc = .unlock) :
    (s.sendStep id st st.pc).Inv := by
  have hstatus := h.status id st hcall
  have hcritical : st.pc.Critical := by
    rcases hpc with hpc | hpc <;> rw [hpc] <;> exact trivial
  obtain ⟨hheld, hown⟩ := h.own hcall hcritical
  rcases hpc with hpc | hpc
  · rw [hpc] at hstatus ⊢
    simp only [sendStep]
    split
    · exact h
    · rename_i hclear
      have hreceipts := hstatus.2.resolve_right fun hold => hclear hold.2.1
      rw [goto_eq hcall st.target]
      exact h.keep hcall (Or.inl hreceipts) rfl rfl rfl rfl rfl (fun _ => hheld) (fun _ _ hheld => hheld)
        (fun _ => Or.inr (Or.inl rfl))
  · rw [hpc] at hstatus ⊢
    simp only [sendStep]
    rw [setCpu_goto hcall]
    have hleft : st.Status (s.cpu st.target) id .returned := hstatus
    have hkept : st.Status { s.cpu st.target with ipiLock := none } id .returned := hleft.congr rfl rfl rfl rfl rfl
    refine h.keep hcall ?_ rfl rfl rfl rfl rfl False.elim (fun id' hne heq => absurd heq (hown id' hne))
      (fun _ => Or.inr (Or.inr rfl))
    exact hkept.imp_right fun hold => ⟨hold.1, hold.2.1, hold.2.2.content, hold.2.2.mailbox, hold.2.2.phase⟩

end Ipi

end Cthulhu
