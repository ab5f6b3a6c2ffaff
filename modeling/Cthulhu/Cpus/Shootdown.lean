import Cthulhu.Word
import Cthulhu.Lib.Run
import Cthulhu.Cpus.Ipi

/-!
# The TLB shootdown protocol

`tlb_shootdown` takes the TLB lock, sends itself a message to invalidate the range, and waits
until the counter equals the number of CPUs; `tlb_shootdown_end` resets the counter and releases
the lock. `send_ipi_message` to the local CPU writes the CPU's own message fields under its IPI
lock and calls `ipi_received` directly. An interrupt that was accepted runs the same handler.

The initiator only ever sends to itself. With one CPU the barrier is met at once; with more, it
waits for acknowledgements of messages that nobody was sent.
-/

namespace Cthulhu

open Lib

/-- The arguments of `tlb_shootdown`. -/
structure ShootdownArgs where
  cr3 : ℕ
  start : ℕ
  amount : ℕ
  deriving DecidableEq, Repr

/-- The message `tlb_shootdown` sends. -/
def ShootdownArgs.message (a : ShootdownArgs) : Message := ⟨.invalidatePage, a.start, a.amount, a.cr3⟩

/-- Where a CPU is in `ipi_received`. The flag of `count` says that the range was invalidated. -/
inductive ReceivePc
  | entry
  | invalidate (i : ℕ)
  | count (active : Bool)
  | spin
  | clear
  | halted
  deriving DecidableEq, Repr

/-- Where a CPU is in `tlb_shootdown` and `tlb_shootdown_end`; `done` is between the two. -/
inductive ShootdownPc
  | idle
  | lockTlb (a : ShootdownArgs)
  | setProcessor (a : ShootdownArgs)
  | lockIpi (a : ShootdownArgs)
  | write (a : ShootdownArgs)
  | receive (a : ShootdownArgs) (pc : ReceivePc)
  | unlockIpi (a : ShootdownArgs)
  | wait (a : ShootdownArgs)
  | done (a : ShootdownArgs)
  | reset
  | unlockTlb
  deriving DecidableEq, Repr

/-- One CPU: its message fields, its pending interrupt, the handler that interrupted it, and the
addresses it invalidated since the shootdown was called. -/
structure ShootdownCpu where
  started : Bool
  activePage : ℕ
  ipiLock : Bool
  mailbox : Message
  handled : Bool
  pending : Bool
  irq : Option ReceivePc
  pc : ShootdownPc
  invalidated : List ℕ

/-- The globals of the protocol and the CPUs of the array `cpus`. -/
structure Shootdown (n : ℕ) where
  tlbLock : Bool
  processor : Option (Fin n)
  counter : ℕ
  cpu : Fin n → ShootdownCpu

namespace Shootdown

variable {n : ℕ}

/-- A state with one CPU replaced. -/
def setCpu (s : Shootdown n) (c : Fin n) (v : ShootdownCpu) : Shootdown n :=
  { s with cpu := Function.update s.cpu c v }

/-- One step of `ipi_received`; no next place once it has returned. -/
def receiveStep (s : Shootdown n) (c : Fin n) : ReceivePc → Shootdown n × Option ReceivePc
  | .entry =>
    match (s.cpu c).mailbox.messageType with
    | .haltImmediately => (s.setCpu c { s.cpu c with handled := false }, some .halted)
    | .invalidatePage =>
      if (s.cpu c).activePage = (s.cpu c).mailbox.message3 then
        (s, some (.invalidate (s.cpu c).mailbox.message))
      else (s, some (.count false))
    | _ => (s, some .clear)
  | .invalidate i =>
    if i < add64 (s.cpu c).mailbox.message (s.cpu c).mailbox.message2 then
      (s.setCpu c { s.cpu c with invalidated := (s.cpu c).invalidated ++ [i] }, some (.invalidate (add64 i 0x1000)))
    else (s, some (.count true))
  | .count active =>
    ({ s with counter := s.counter + 1 }, some (if active ∧ s.processor ≠ some c then .spin else .clear))
  | .spin => (s, some (if s.counter = 0 then .clear else .spin))
  | .clear => (s.setCpu c { s.cpu c with handled := false }, none)
  | .halted => (s, some .halted)

/-- A state with the place of one CPU replaced. -/
def goto (s : Shootdown n) (c : Fin n) (pc : ShootdownPc) : Shootdown n := s.setCpu c { s.cpu c with pc := pc }

/-- One step of `tlb_shootdown` and `tlb_shootdown_end` from a place of their code. -/
def shootdownStep (s : Shootdown n) (c : Fin n) : ShootdownPc → Shootdown n
  | .idle => s
  | .lockTlb a => if s.tlbLock then s else { s with tlbLock := true }.goto c (.setProcessor a)
  | .setProcessor a => { s with processor := some c }.goto c (.lockIpi a)
  | .lockIpi a => if (s.cpu c).ipiLock then s else (s.setCpu c { s.cpu c with ipiLock := true }).goto c (.write a)
  | .write a => (s.setCpu c { s.cpu c with handled := true, mailbox := a.message }).goto c (.receive a .entry)
  | .receive a pc =>
    let r := s.receiveStep c pc
    match r.2 with
    | some pc => r.1.goto c (.receive a pc)
    | none => r.1.goto c (.unlockIpi a)
  | .unlockIpi a => (s.setCpu c { s.cpu c with ipiLock := false }).goto c (.wait a)
  | .wait a => if s.counter = n then s.goto c (.done a) else s
  | .done _ => s.goto c .reset
  | .reset => { s with counter := 0 }.goto c .unlockTlb
  | .unlockTlb => { s with tlbLock := false }.goto c .idle

/-- One step of the CPU's own code, which an interrupt handler holds up. -/
def mainStep (s : Shootdown n) (c : Fin n) : Shootdown n :=
  if (s.cpu c).irq ≠ none then s else s.shootdownStep c (s.cpu c).pc

/-- One step of an interrupt handler. -/
def irqStep (s : Shootdown n) (c : Fin n) : Shootdown n :=
  match (s.cpu c).irq with
  | none => s
  | some pc =>
    let r := s.receiveStep c pc
    r.1.setCpu c { r.1.cpu c with irq := r.2 }

/-- A pending interrupt is accepted. -/
def deliver (s : Shootdown n) (c : Fin n) : Shootdown n :=
  if (s.cpu c).pending ∧ (s.cpu c).irq = none then s.setCpu c { s.cpu c with pending := false, irq := some .entry } else s

/-- A CPU that is not in a shootdown switches to another address space. -/
def switchPage (s : Shootdown n) (c : Fin n) (page : ℕ) : Shootdown n :=
  if (s.cpu c).pc = .idle then s.setCpu c { s.cpu c with activePage := page } else s

/-- The call of `tlb_shootdown`. -/
def call (s : Shootdown n) (c : Fin n) (a : ShootdownArgs) : Shootdown n :=
  { s with cpu := fun d => { s.cpu d with invalidated := [], pc := if d = c then .lockTlb a else (s.cpu d).pc } }

end Shootdown

/-- What can happen next, on any CPU. -/
inductive ShootdownMove (n : ℕ)
  | main (c : Fin n)
  | deliver (c : Fin n)
  | irq (c : Fin n)
  | switchPage (c : Fin n) (page : ℕ)

namespace Shootdown

variable {n : ℕ}

/-- One move. -/
def step (s : Shootdown n) : ShootdownMove n → Shootdown n
  | .main c => s.mainStep c
  | .deliver c => s.deliver c
  | .irq c => s.irqStep c
  | .switchPage c page => s.switchPage c page

/-- Between shootdowns: nobody is in one, the locks are free, the counter is zero and no interrupt
is pending or being handled. -/
structure Idle (s : Shootdown n) : Prop where
  tlbLock : s.tlbLock = false
  counter : s.counter = 0
  cpus : ∀ c, (s.cpu c).ipiLock = false ∧ (s.cpu c).pending = false ∧ (s.cpu c).irq = none ∧ (s.cpu c).pc = .idle

/-- The CPU has executed `invalidate_address` in every page of the range. -/
def Invalidated (v : ShootdownCpu) (a : ShootdownArgs) : Prop :=
  ∀ b, a.start ≤ b → b < a.start + a.amount → b < 2 ^ 64 → ∃ i ∈ v.invalidated, align i = align b

/-- The initiator waits for the counter while no message is outstanding. -/
def Stuck (s : Shootdown n) (c : Fin n) (a : ShootdownArgs) : Prop :=
  (s.cpu c).pc = .wait a ∧ s.counter ≠ n ∧ ∀ d, (s.cpu d).pending = false ∧ (s.cpu d).irq = none

/-- What a shootdown promises in a state: if it has returned, every started CPU in that address space
has invalidated the range, and it does not wait for nothing. -/
def Sound (s : Shootdown n) (c : Fin n) (a : ShootdownArgs) : Prop :=
  ((s.cpu c).pc = .done a → ∀ d, (s.cpu d).started = true → (s.cpu d).activePage = a.cr3 →
      Invalidated (s.cpu d) a) ∧ ¬ s.Stuck c a

end Shootdown

namespace ShootdownArgs

variable (a : ShootdownArgs)

/-- The loop of `ipi_received` makes its round `k`. -/
def Rounds (k : ℕ) : Prop := ∀ j ≤ k, nthPage a.start j < add64 a.start a.amount

/-- The loop never ends: its counter wraps before it passes the end of the range. -/
def Endless : Prop := ∀ k, a.Rounds k

/-- Some round of the loop falls in every page of the range. -/
def Covered : Prop :=
  ∀ b, a.start ≤ b → b < a.start + a.amount → b < 2 ^ 64 → ∃ k, a.Rounds k ∧ align (nthPage a.start k) = align b

end ShootdownArgs

namespace Shootdown

variable {n : ℕ} {s : Shootdown n} {c : Fin n} {a : ShootdownArgs} {page : ℕ}

/-- Replacing a CPU replaces that one. -/
@[simp] theorem setCpu_self (s : Shootdown n) (c : Fin n) (v : ShootdownCpu) : (s.setCpu c v).cpu c = v :=
  Function.update_self ..

/-- Replacing a CPU leaves the others. -/
theorem setCpu_of_ne (s : Shootdown n) {c d : Fin n} (h : d ≠ c) (v : ShootdownCpu) :
    (s.setCpu c v).cpu d = s.cpu d := Function.update_of_ne h ..

/-- Replacing a CPU leaves the counter. -/
@[simp] theorem setCpu_counter (s : Shootdown n) (c : Fin n) (v : ShootdownCpu) :
    (s.setCpu c v).counter = s.counter := rfl

/-- Replacing a CPU leaves the TLB lock. -/
@[simp] theorem setCpu_tlbLock (s : Shootdown n) (c : Fin n) (v : ShootdownCpu) :
    (s.setCpu c v).tlbLock = s.tlbLock := rfl

/-- Replacing a CPU leaves the initiator. -/
@[simp] theorem setCpu_processor (s : Shootdown n) (c : Fin n) (v : ShootdownCpu) :
    (s.setCpu c v).processor = s.processor := rfl

/-- Going to another place replaces the CPU's place. -/
@[simp] theorem goto_self (s : Shootdown n) (c : Fin n) (pc : ShootdownPc) :
    (s.goto c pc).cpu c = { s.cpu c with pc := pc } := setCpu_self ..

/-- Going to another place leaves the other CPUs. -/
theorem goto_of_ne (s : Shootdown n) {c d : Fin n} (h : d ≠ c) (pc : ShootdownPc) :
    (s.goto c pc).cpu d = s.cpu d := setCpu_of_ne s h _

/-- Going to another place leaves the counter. -/
@[simp] theorem goto_counter (s : Shootdown n) (c : Fin n) (pc : ShootdownPc) :
    (s.goto c pc).counter = s.counter := rfl

/-- Going to another place leaves the TLB lock. -/
@[simp] theorem goto_tlbLock (s : Shootdown n) (c : Fin n) (pc : ShootdownPc) :
    (s.goto c pc).tlbLock = s.tlbLock := rfl

/-- Going to another place leaves the initiator. -/
@[simp] theorem goto_processor (s : Shootdown n) (c : Fin n) (pc : ShootdownPc) :
    (s.goto c pc).processor = s.processor := rfl

end Shootdown

/-- The first `k` rounds of the loop were made. -/
def ShootdownCpu.LoopAt (v : ShootdownCpu) (a : ShootdownArgs) (k : ℕ) : Prop :=
  v.activePage = a.cr3 ∧ (∀ j < k, nthPage a.start j < add64 a.start a.amount) ∧
    v.invalidated = (List.range k).map (nthPage a.start)

/-- The handler has done its work on the CPU: the loop came to its end where it had to be made. -/
def ShootdownCpu.Served (v : ShootdownCpu) (a : ShootdownArgs) : Prop :=
  v.activePage = a.cr3 → ∃ k, v.LoopAt a k ∧ ¬ nthPage a.start k < add64 a.start a.amount

namespace Shootdown

variable {n : ℕ}

/-- What is known of the initiator at each place of its code. -/
def At (s : Shootdown n) (c : Fin n) (a : ShootdownArgs) : ShootdownPc → Prop
  | .lockTlb a' => a' = a ∧ s.counter = 0 ∧ s.tlbLock = false ∧ (s.cpu c).ipiLock = false ∧ (s.cpu c).invalidated = []
  | .setProcessor a' => a' = a ∧ s.counter = 0 ∧ (s.cpu c).ipiLock = false ∧ (s.cpu c).invalidated = []
  | .lockIpi a' => a' = a ∧ s.counter = 0 ∧ s.processor = some c ∧ (s.cpu c).ipiLock = false ∧
      (s.cpu c).invalidated = []
  | .write a' => a' = a ∧ s.counter = 0 ∧ s.processor = some c ∧ (s.cpu c).invalidated = []
  | .receive a' .entry => a' = a ∧ s.counter = 0 ∧ s.processor = some c ∧ (s.cpu c).mailbox = a.message ∧
      (s.cpu c).invalidated = []
  | .receive a' (.invalidate i) => a' = a ∧ s.counter = 0 ∧ s.processor = some c ∧ (s.cpu c).mailbox = a.message ∧
      ∃ k, i = nthPage a.start k ∧ (s.cpu c).LoopAt a k
  | .receive a' (.count _) => a' = a ∧ s.counter = 0 ∧ s.processor = some c ∧ (s.cpu c).Served a
  | .receive a' .clear => a' = a ∧ s.counter = 1 ∧ (s.cpu c).Served a
  | .receive _ .spin => False
  | .receive _ .halted => False
  | .unlockIpi a' => a' = a ∧ s.counter = 1 ∧ (s.cpu c).Served a
  | .wait a' => a' = a ∧ s.counter = 1 ∧ (s.cpu c).Served a
  | .done a' => a' = a ∧ n = 1 ∧ (s.cpu c).Served a
  | .reset => True
  | .unlockTlb => True
  | .idle => True

/-- The states of one shootdown by a started CPU: only the initiator moves, no message is outstanding,
and it keeps its address space until it has returned. -/
structure Progress (s : Shootdown n) (c : Fin n) (a : ShootdownArgs) (page : ℕ) : Prop where
  others : ∀ d, d ≠ c → (s.cpu d).pc = .idle
  quiet : ∀ d, (s.cpu d).pending = false ∧ (s.cpu d).irq = none
  started : (s.cpu c).started = true
  page : (s.cpu c).pc ≠ .idle → (s.cpu c).activePage = page
  own : s.At c a (s.cpu c).pc

variable {s : Shootdown n} {c : Fin n} {a : ShootdownArgs} {page : ℕ}

/-- No handler holds the initiator up. -/
theorem Progress.mainStep_eq (h : s.Progress c a page) {pc : ShootdownPc} (hpc : (s.cpu c).pc = pc) :
    s.mainStep c = s.shootdownStep c pc := by
  unfold mainStep
  rw [if_neg (not_not.mpr (h.quiet c).2), hpc]

/-- A step of the initiator that leaves the other CPUs and its own address space. -/
theorem Progress.advance (h : s.Progress c a page) {s' : Shootdown n} (hbusy : (s.cpu c).pc ≠ .idle)
    (hothers : ∀ d, d ≠ c → s'.cpu d = s.cpu d) (hpending : (s'.cpu c).pending = (s.cpu c).pending)
    (hirq : (s'.cpu c).irq = (s.cpu c).irq) (hstarted : (s'.cpu c).started = (s.cpu c).started)
    (hpage : (s'.cpu c).activePage = (s.cpu c).activePage) (hown : s'.At c a (s'.cpu c).pc) :
    s'.Progress c a page := by
  refine ⟨fun d hd => ?_, fun d => ?_, hstarted.trans h.started, fun _ => hpage.trans (h.page hbusy), hown⟩
  · rw [hothers d hd]
    exact h.others d hd
  · by_cases hd : d = c
    · subst hd
      rw [hpending, hirq]
      exact h.quiet d
    · rw [hothers d hd]
      exact h.quiet d

/-- The rounds of the loop that are made are exactly those the handler counts. -/
theorem LoopAt.next {v : ShootdownCpu} {k : ℕ} (h : v.LoopAt a k) (hround : nthPage a.start k < add64 a.start a.amount) :
    ({ v with invalidated := v.invalidated ++ [nthPage a.start k] } : ShootdownCpu).LoopAt a (k + 1) := by
  obtain ⟨hpage, hbefore, hlog⟩ := h
  refine ⟨hpage, fun j hj => ?_, ?_⟩
  · rcases Nat.lt_succ_iff_lt_or_eq.mp hj with hlt | rfl
    · exact hbefore j hlt
    · exact hround
  · rw [List.range_succ, List.map_append, hlog]
    rfl

/-- The handler reads the message and compares the address spaces. -/
theorem receiveStep_entry (hmailbox : (s.cpu c).mailbox = a.message) :
    s.receiveStep c .entry =
      (s, some (if (s.cpu c).activePage = a.cr3 then .invalidate a.start else .count false)) := by
  unfold receiveStep
  rw [hmailbox]
  change (if (s.cpu c).activePage = a.cr3 then _ else _) = _
  split
  · rfl
  · rfl

/-- The handler makes one round of its loop, or leaves it. -/
theorem receiveStep_invalidate (hmailbox : (s.cpu c).mailbox = a.message) (i : ℕ) :
    s.receiveStep c (.invalidate i) = if i < add64 a.start a.amount then
        (s.setCpu c { s.cpu c with invalidated := (s.cpu c).invalidated ++ [i] },
          some (.invalidate (add64 i 0x1000)))
      else (s, some (.count true)) := by
  unfold receiveStep
  rw [hmailbox]
  rfl

/-- The initiator is counted and does not spin. -/
theorem receiveStep_count (hprocessor : s.processor = some c) (active : Bool) :
    s.receiveStep c (.count active) = ({ s with counter := s.counter + 1 }, some .clear) := by
  have hnospin : ¬ (active = true ∧ s.processor ≠ some c) := fun hspin => hspin.2 hprocessor
  change (_, some (if active = true ∧ s.processor ≠ some c then ReceivePc.spin else ReceivePc.clear)) = _
  rw [if_neg hnospin]

/-- A step of the handler on the initiator. -/
theorem Progress.receive (h : s.Progress c a page) {a' : ShootdownArgs} {pc : ReceivePc}
    (hpc : (s.cpu c).pc = .receive a' pc) : (s.mainStep c).Progress c a page := by
  have hbusy : (s.cpu c).pc ≠ .idle := by
    rw [hpc]
    exact fun hidle => ShootdownPc.noConfusion hidle
  have hown := h.own
  rw [hpc] at hown
  rw [h.mainStep_eq hpc, shootdownStep]
  cases pc with
  | entry =>
    obtain ⟨rfl, hcounter, hprocessor, hmailbox, hlog⟩ := hown
    rw [receiveStep_entry hmailbox]
    refine h.advance hbusy (fun d hd => goto_of_ne s hd _) (by simp) (by simp) (by simp) (by simp) ?_
    simp only [goto_self]
    split
    · rename_i hactive
      simp only [At, goto_counter, goto_processor, goto_self]
      exact ⟨trivial, hcounter, hprocessor, hmailbox, 0, rfl, hactive, by simp, hlog⟩
    · rename_i hactive
      simp only [At, goto_counter, goto_processor, goto_self]
      exact ⟨trivial, hcounter, hprocessor, fun hcr3 => absurd hcr3 hactive⟩
  | invalidate i =>
    obtain ⟨rfl, hcounter, hprocessor, hmailbox, k, rfl, hloop⟩ := hown
    by_cases hround : nthPage a'.start k < add64 a'.start a'.amount
    · rw [receiveStep_invalidate hmailbox, if_pos hround]
      refine h.advance hbusy (fun d hd => (goto_of_ne _ hd _).trans (setCpu_of_ne s hd _)) (by simp) (by simp) (by simp)
        (by simp) ?_
      simp only [goto_self, At, goto_counter, goto_processor, setCpu_self, setCpu_counter, setCpu_processor]
      exact ⟨trivial, hcounter, hprocessor, hmailbox, k + 1, rfl, LoopAt.next hloop hround⟩
    · rw [receiveStep_invalidate hmailbox, if_neg hround]
      refine h.advance hbusy (fun d hd => goto_of_ne s hd _) (by simp) (by simp) (by simp) (by simp) ?_
      simp only [goto_self, At, goto_counter, goto_processor]
      exact ⟨trivial, hcounter, hprocessor, fun _ => ⟨k, hloop, hround⟩⟩
  | count active =>
    obtain ⟨rfl, hcounter, hprocessor, hserved⟩ := hown
    rw [receiveStep_count hprocessor]
    refine h.advance hbusy (fun d hd => goto_of_ne _ hd _) (by simp) (by simp) (by simp) (by simp) ?_
    simp only [goto_self, At, goto_counter]
    exact ⟨trivial, by rw [hcounter], hserved⟩
  | spin => exact hown.elim
  | clear =>
    obtain ⟨rfl, hcounter, hserved⟩ := hown
    refine h.advance hbusy (fun d hd => (goto_of_ne _ hd _).trans (setCpu_of_ne s hd _)) ?_ ?_ ?_ ?_ ?_
    all_goals simp only [receiveStep, goto_self, At, goto_counter, setCpu_self, setCpu_counter]
    exact ⟨trivial, hcounter, hserved⟩
  | halted => exact hown.elim

/-- A step of the initiator's code. -/
theorem Progress.main (h : s.Progress c a page) : (s.mainStep c).Progress c a page := by
  have hown := h.own
  cases hpc : (s.cpu c).pc with
  | receive a' pc => exact h.receive hpc
  | idle =>
    rw [h.mainStep_eq hpc, shootdownStep]
    exact h
  | lockTlb a' =>
    rw [hpc] at hown
    obtain ⟨rfl, hcounter, htlb, hipi, hlog⟩ := hown
    rw [h.mainStep_eq hpc, shootdownStep]
    simp only [htlb, Bool.false_eq_true, if_false]
    refine h.advance (by simp [hpc]) (fun d hd => goto_of_ne _ hd _) (by simp) (by simp) (by simp) (by simp) ?_
    simp only [goto_self, At, goto_counter]
    exact ⟨trivial, hcounter, hipi, hlog⟩
  | setProcessor a' =>
    rw [hpc] at hown
    obtain ⟨rfl, hcounter, hipi, hlog⟩ := hown
    rw [h.mainStep_eq hpc, shootdownStep]
    refine h.advance (by simp [hpc]) (fun d hd => goto_of_ne _ hd _) (by simp) (by simp) (by simp) (by simp) ?_
    simp only [goto_self, At, goto_counter, goto_processor]
    exact ⟨trivial, hcounter, trivial, hipi, hlog⟩
  | lockIpi a' =>
    rw [hpc] at hown
    obtain ⟨rfl, hcounter, hprocessor, hipi, hlog⟩ := hown
    rw [h.mainStep_eq hpc, shootdownStep]
    simp only [hipi, Bool.false_eq_true, if_false]
    refine h.advance (by simp [hpc]) (fun d hd => (goto_of_ne _ hd _).trans (setCpu_of_ne s hd _)) (by simp) (by simp)
      (by simp) (by simp) ?_
    simp only [goto_self, At, goto_counter, goto_processor, setCpu_self, setCpu_counter, setCpu_processor]
    exact ⟨trivial, hcounter, hprocessor, hlog⟩
  | write a' =>
    rw [hpc] at hown
    obtain ⟨rfl, hcounter, hprocessor, hlog⟩ := hown
    rw [h.mainStep_eq hpc, shootdownStep]
    refine h.advance (by simp [hpc]) (fun d hd => (goto_of_ne _ hd _).trans (setCpu_of_ne s hd _)) (by simp) (by simp)
      (by simp) (by simp) ?_
    simp only [goto_self, At, goto_counter, goto_processor, setCpu_self, setCpu_counter, setCpu_processor]
    exact ⟨trivial, hcounter, hprocessor, trivial, hlog⟩
  | unlockIpi a' =>
    rw [hpc] at hown
    obtain ⟨rfl, hcounter, hserved⟩ := hown
    rw [h.mainStep_eq hpc, shootdownStep]
    refine h.advance (by simp [hpc]) (fun d hd => (goto_of_ne _ hd _).trans (setCpu_of_ne s hd _)) (by simp) (by simp)
      (by simp) (by simp) ?_
    simp only [goto_self, At, goto_counter, setCpu_self, setCpu_counter]
    exact ⟨trivial, hcounter, hserved⟩
  | wait a' =>
    rw [hpc] at hown
    obtain ⟨rfl, hcounter, hserved⟩ := hown
    rw [h.mainStep_eq hpc, shootdownStep]
    split
    · rename_i hall
      refine h.advance (by simp [hpc]) (fun d hd => goto_of_ne _ hd _) (by simp) (by simp) (by simp) (by simp) ?_
      simp only [goto_self, At]
      exact ⟨trivial, by omega, hserved⟩
    · exact h
  | done a' =>
    rw [h.mainStep_eq hpc, shootdownStep]
    refine h.advance (by simp [hpc]) (fun d hd => goto_of_ne _ hd _) (by simp) (by simp) (by simp) (by simp) ?_
    simp [goto_self, At]
  | reset =>
    rw [h.mainStep_eq hpc, shootdownStep]
    refine h.advance (by simp [hpc]) (fun d hd => goto_of_ne _ hd _) (by simp) (by simp) (by simp) (by simp) ?_
    simp [goto_self, At]
  | unlockTlb =>
    rw [h.mainStep_eq hpc, shootdownStep]
    refine h.advance (by simp [hpc]) (fun d hd => goto_of_ne _ hd _) (by simp) (by simp) (by simp) (by simp) ?_
    simp [goto_self, At]

/-- Every move keeps the states of a shootdown. -/
theorem Progress.step (h : s.Progress c a page) (move : ShootdownMove n) : (s.step move).Progress c a page := by
  cases move with
  | main d =>
    by_cases hd : d = c
    · rw [hd]
      exact h.main
    · have hsame : s.step (.main d) = s := by
        change s.mainStep d = s
        unfold mainStep
        rw [if_neg (not_not.mpr (h.quiet d).2), h.others d hd, shootdownStep]
      rw [hsame]
      exact h
  | deliver d =>
    have hsame : s.step (.deliver d) = s := if_neg fun hpending => absurd hpending.1 (by simp [(h.quiet d).1])
    rw [hsame]
    exact h
  | irq d =>
    have hsame : s.step (.irq d) = s := by
      change s.irqStep d = s
      unfold irqStep
      rw [(h.quiet d).2]
    rw [hsame]
    exact h
  | switchPage d newPage =>
    change (s.switchPage d newPage).Progress c a page
    unfold switchPage
    split
    · rename_i hidle
      have hcpu (e : Fin n) : (s.setCpu d { s.cpu d with activePage := newPage }).cpu e =
          if e = d then { s.cpu d with activePage := newPage } else s.cpu e := Function.update_apply ..
      refine ⟨fun e he => ?_, fun e => ?_, ?_, fun hbusy => ?_, ?_⟩
      · rw [hcpu]
        split
        · exact hidle
        · exact h.others e he
      · rw [hcpu]
        split
        · exact h.quiet d
        · exact h.quiet e
      · rw [hcpu]
        split
        · rename_i hcd
          rw [← hcd]
          exact h.started
        · exact h.started
      · rw [hcpu] at hbusy ⊢
        split at hbusy
        · exact absurd hidle hbusy
        · rename_i hcd
          rw [if_neg hcd]
          exact h.page hbusy
      · by_cases hcd : c = d
        · subst hcd
          rw [setCpu_self]
          change Shootdown.At _ c a (s.cpu c).pc
          rw [hidle]
          trivial
        · -- another CPU's address space is no part of what is known of the initiator
          have hsame := setCpu_of_ne s hcd { s.cpu d with activePage := newPage }
          have hown := h.own
          rw [hsame]
          unfold At at hown ⊢
          rw [hsame]
          exact hown
    · exact h

/-- Every run of a shootdown stays in its states. -/
theorem Progress.run (h : s.Progress c a page) (moves : List (ShootdownMove n)) :
    (Lib.run Shootdown.step s moves).Progress c a page :=
  (Guarded.trivial Shootdown.step s moves).invariant (fun s => s.Progress c a page)
    (fun _ move hs _ => hs.step move) h

/-- A shootdown called between shootdowns. -/
theorem Idle.progress (h : s.Idle) (hstarted : (s.cpu c).started = true) (a : ShootdownArgs) :
    (s.call c a).Progress c a (s.cpu c).activePage := by
  refine ⟨fun d hd => ?_, fun d => ?_, hstarted, fun _ => rfl, ?_⟩
  · change (if d = c then _ else (s.cpu d).pc) = _
    rw [if_neg hd]
    exact (h.cpus d).2.2.2
  · exact ⟨(h.cpus d).2.1, (h.cpus d).2.2.1⟩
  · have hpc : ((s.call c a).cpu c).pc = .lockTlb a := if_pos rfl
    rw [hpc]
    exact ⟨rfl, h.counter, h.tlbLock, (h.cpus c).1, rfl⟩

/-- A served CPU has invalidated exactly the rounds of the loop. -/
theorem LoopAt.rounds {v : ShootdownCpu} {k : ℕ} (h : v.LoopAt a k) (hend : ¬ nthPage a.start k < add64 a.start a.amount)
    (i : ℕ) : i ∈ v.invalidated ↔ ∃ j, a.Rounds j ∧ nthPage a.start j = i := by
  obtain ⟨-, hbefore, hlog⟩ := h
  rw [hlog, List.mem_map]
  constructor
  · rintro ⟨j, hj, rfl⟩
    exact ⟨j, fun l hl => hbefore l (Nat.lt_of_le_of_lt hl (List.mem_range.mp hj)), rfl⟩
  · rintro ⟨j, hj, rfl⟩
    refine ⟨j, List.mem_range.mpr (Nat.lt_of_not_le fun hle => ?_), rfl⟩
    exact hend (hj k hle)

/-- A served CPU in the address space has invalidated the range exactly when the loop covers it. -/
theorem Served.invalidated_iff {v : ShootdownCpu} (h : v.Served a) (hactive : v.activePage = a.cr3) :
    Invalidated v a ↔ a.Covered := by
  obtain ⟨k, hloop, hend⟩ := h hactive
  unfold Invalidated ShootdownArgs.Covered
  simp only [LoopAt.rounds hloop hend]
  constructor
  · intro hall b hlow hhigh hword
    obtain ⟨i, ⟨j, hj, rfl⟩, halign⟩ := hall b hlow hhigh hword
    exact ⟨j, hj, halign⟩
  · intro hall b hlow hhigh hword
    obtain ⟨j, hj, halign⟩ := hall b hlow hhigh hword
    exact ⟨_, ⟨j, hj, rfl⟩, halign⟩

/-- What a shootdown keeps where it is the only CPU and its loop covers the range, or where the loop
never ends. -/
theorem Progress.sound (h : s.Progress c a page)
    (hcond : (page = a.cr3 ∧ a.Endless) ∨ (n = 1 ∧ (page = a.cr3 → a.Covered))) : s.Sound c a := by
  have hserved (hserved : (s.cpu c).Served a) (hbusy : (s.cpu c).pc ≠ .idle) : n = 1 ∧ (page = a.cr3 → a.Covered) := by
    rcases hcond with ⟨hpage, hendless⟩ | hone
    · obtain ⟨k, -, hend⟩ := hserved ((h.page hbusy).trans hpage)
      exact absurd (hendless k k (Nat.le_refl k)) hend
    · exact hone
  constructor
  · intro hpc d hstarted hactive
    have hown := h.own
    rw [hpc] at hown
    obtain ⟨-, hn, hdone⟩ := hown
    have hbusy : (s.cpu c).pc ≠ .idle := by simp [hpc]
    obtain rfl : d = c := by
      subst hn
      exact Subsingleton.elim d c
    exact (Served.invalidated_iff hdone hactive).mpr ((hserved hdone hbusy).2 ((h.page hbusy).symm.trans hactive))
  · rintro ⟨hpc, hcounter, -⟩
    have hown := h.own
    rw [hpc] at hown
    obtain ⟨-, hone, hwait⟩ := hown
    have hn := (hserved hwait (by simp [hpc])).1
    omega

end Shootdown

end Cthulhu
