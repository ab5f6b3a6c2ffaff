import Mathlib.Data.List.Basic
import Mathlib.Order.Basic
import Mathlib.Tactic.IntervalCases
import Cthulhu.Lib.Run

/-!
# Acknowledging interrupts

`isr_handler` tells the interrupt controllers that an interrupt is done when the handler has returned. A controller has some
levels in service and lets only a higher one through; an end of interrupt takes the highest out. Handlers may let interrupts
in again, so interrupts nest. A spurious interrupt has the vector of level 7 without that level in service, so `isr_handler`
does not acknowledge this vector, and a real interrupt of level 7 stays in service. So does every level whose handler does not
come back, as `schedule` does not when it has thrown its frame away.
-/

namespace Cthulhu

open Lib

/-- The calls of `outb` in `pic_sendeoi`. -/
def picSendeoi (irq : ℕ) : List (ℕ × ℕ) :=
  if irq = 256 then [(0x20, 0x20)]
  else if irq = 257 then [(0xA0, 0x20)]
  else if irq = 258 then [(0x20, 0x20), (0xA0, 0x20)]
  else (if irq ≥ 8 then [(0xA0, 0x20)] else []) ++ [(0x20, 0x20)]

/-- Those of `isr_handler` behind the call of the handler. -/
def isrAcknowledge (type : ℕ) : List (ℕ × ℕ) :=
  if type > 31 ∧ type < 48 then
    (if type ≥ 40 ∧ type ≠ 47 then picSendeoi 257 else []) ++ if type ≠ 39 then picSendeoi 256 else []
  else []

/-- The levels that the two controllers have in service, highest first. -/
structure Pics where
  master : List ℕ
  slave : List ℕ
  deriving DecidableEq, Repr

/-- A controller hears of the end of an interrupt. -/
def Pics.out (p : Pics) (write : ℕ × ℕ) : Pics :=
  if write = (0x20, 0x20) then { p with master := p.master.tail }
  else if write = (0xA0, 0x20) then { p with slave := p.slave.tail }
  else p

/-- An interrupt that is let through: its vector and its levels, if any. -/
structure Served where
  type : ℕ
  master : Option ℕ
  slave : Option ℕ
  deriving DecidableEq, Repr

/-- The interrupt of a line. The controller of the upper eight is at line 2 of the other one. -/
def Served.irq (n : ℕ) : Served := ⟨32 + n, some (if n < 8 then n else 2), if n < 8 then none else some (n - 8)⟩

/-- A spurious interrupt of the first controller. -/
def Served.spuriousMaster : Served := ⟨39, none, none⟩

/-- A spurious interrupt of the second one. For the first one it is none. -/
def Served.spuriousSlave : Served := ⟨47, some 2, none⟩

/-- The controllers, the interrupts that are being handled, innermost first, and the vectors with a handler. -/
structure IrqState where
  pics : Pics
  running : List Served
  handlers : ℕ → Bool

/-- What happens to them. -/
inductive IrqEvent where
  | deliver (v : Served)
  | returns
  /-- The handlers are left for good. -/
  | abandoned
  /-- `register_interrupt_handler` -/
  | register (interruptId : ℕ)

/-- The end of the handler that runs, with what `isr_handler` does behind it. -/
def IrqState.finish (s : IrqState) : IrqState :=
  match s.running with
  | [] => s
  | v :: rest => { s with pics := run Pics.out s.pics (isrAcknowledge v.type), running := rest }

/-- A step. -/
def IrqState.step (s : IrqState) : IrqEvent → IrqState
  | .deliver v => { s with
      pics := ⟨v.master.toList ++ s.pics.master, v.slave.toList ++ s.pics.slave⟩
      running := v :: s.running }
  | .returns => s.finish
  | .abandoned => { s with running := [] }
  | .register interruptId => { s with handlers := Function.update s.handlers interruptId true }

/-- A level is let through when it is higher than those in service. -/
def LetThrough (level : Option ℕ) (inService : List ℕ) : Prop := ∀ n ∈ level, ∀ i ∈ inService, n < i

/-- An interrupt of some line may come, if there is a handler for it; without one the kernel stops. A spurious one takes the
place of a line that would have been let through. -/
def IrqState.Delivers (s : IrqState) (v : Served) : Prop :=
  s.handlers v.type = true ∧ LetThrough v.master s.pics.master ∧ LetThrough v.slave s.pics.slave ∧
    ((∃ n < 16, n ≠ 2 ∧ v = .irq n) ∨ (v = .spuriousMaster ∧ 0 ∉ s.pics.master) ∨
      (v = .spuriousSlave ∧ 0 ∉ s.pics.slave))

/-- When something may happen. -/
def IrqState.May (s : IrqState) : IrqEvent → Prop
  | .deliver v => s.Delivers v
  | _ => True

/-- The controllers when interrupts are enabled first. -/
def IrqState.first (handlers : ℕ → Bool) : IrqState := ⟨⟨[], []⟩, [], handlers⟩

/-- The levels of the interrupts that run, and below them the levels that stay in service. -/
structure InService (s : IrqState) (master slave : List ℕ) : Prop where
  master : s.pics.master = s.running.flatMap (fun v => v.master.toList) ++ master
  slave : s.pics.slave = s.running.flatMap (fun v => v.slave.toList) ++ slave
  sorted : s.pics.master.Pairwise (· < ·) ∧ s.pics.slave.Pairwise (· < ·)
  low : (∀ i ∈ s.pics.master, i ≤ 7) ∧ ∀ i ∈ s.pics.slave, i ≤ 7
  running : ∀ v ∈ s.running, (∃ n < 16, n ≠ 2 ∧ v = .irq n) ∨ v = .spuriousMaster ∨ v = .spuriousSlave

/-- The level of an interrupt that `isr_handler` leaves in service. -/
def Served.left (v : Served) : List ℕ × List ℕ :=
  (if v.type = 39 then v.master.toList else [], if v.type = 47 then v.slave.toList else [])

/-- What the controllers make of the end of an interrupt. -/
theorem Served.acknowledge {v : Served}
    (hv : (∃ n < 16, n ≠ 2 ∧ v = .irq n) ∨ v = .spuriousMaster ∨ v = .spuriousSlave) (master slave : List ℕ) :
    run Pics.out ⟨v.master.toList ++ master, v.slave.toList ++ slave⟩ (isrAcknowledge v.type) =
      ⟨v.left.1 ++ master, v.left.2 ++ slave⟩ := by
  rcases hv with ⟨n, hn, -, rfl⟩ | rfl | rfl
  · interval_cases n <;> rfl
  · rfl
  · rfl

/-- In order, nothing is below the lowest level. -/
theorem below_lowest {rest : List ℕ} (hsorted : (7 :: rest).Pairwise (· < ·)) (hlow : ∀ i ∈ rest, i ≤ 7) : rest = [] := by
  cases rest with
  | nil => rfl
  | cons i rest =>
    have hlt := List.rel_of_pairwise_cons hsorted (List.mem_cons_self ..)
    have hle := hlow i (List.mem_cons_self ..)
    omega

/-- A level of its own at the front. -/
theorem pairwise_option {level : Option ℕ} {inService : List ℕ} (h : inService.Pairwise (· < ·)) (habove : LetThrough level inService) :
    (level.toList ++ inService).Pairwise (· < ·) := by
  cases level with
  | none => exact h
  | some n => exact List.pairwise_cons.mpr ⟨habove n rfl, h⟩

/-- What can be left in service is the lowest level. -/
theorem Served.left_cases {v : Served}
    (hv : (∃ n < 16, n ≠ 2 ∧ v = .irq n) ∨ v = .spuriousMaster ∨ v = .spuriousSlave) :
    (v.left.1 = [] ∨ v.left.1 = [7] ∧ v.master = some 7) ∧ (v.left.2 = [] ∨ v.left.2 = [7] ∧ v.slave = some 7) := by
  rcases hv with ⟨n, hn, -, rfl⟩ | rfl | rfl
  · interval_cases n <;> decide
  · decide
  · decide

/-- The lowest level is left in service. -/
theorem Served.left_lowest {v : Served}
    (hv : (∃ n < 16, n ≠ 2 ∧ v = .irq n) ∨ v = .spuriousMaster ∨ v = .spuriousSlave) :
    (7 ∈ v.master.toList → 7 ∈ v.left.1) ∧ (7 ∈ v.slave.toList → 7 ∈ v.left.2) := by
  rcases hv with ⟨n, hn, -, rfl⟩ | rfl | rfl
  · interval_cases n <;> decide
  · decide
  · decide

/-- The levels of an interrupt are those of the controllers. -/
theorem Served.low {v : Served} (hv : (∃ n < 16, n ≠ 2 ∧ v = .irq n) ∨ v = .spuriousMaster ∨ v = .spuriousSlave) :
    (∀ i ∈ v.master.toList, i ≤ 7) ∧ ∀ i ∈ v.slave.toList, i ≤ 7 := by
  rcases hv with ⟨n, hn, -, rfl⟩ | rfl | rfl
  · interval_cases n <;> decide
  · decide
  · decide

/-- The levels that stay when the interrupt at the top is done, for one of the controllers. -/
theorem stays_in_service {left rest kept : List ℕ} {level : Option ℕ} (hleft : left = [] ∨ left = [7] ∧ level = some 7)
    (hsorted : (level.toList ++ (rest ++ kept)).Pairwise (· < ·)) (hlow : ∀ i ∈ level.toList ++ (rest ++ kept), i ≤ 7) :
    ∃ kept', left ++ (rest ++ kept) = rest ++ kept' ∧ (kept' = kept ∨ kept = [] ∧ kept' = [7]) ∧
      (left ++ (rest ++ kept)).Pairwise (· < ·) ∧ ∀ i ∈ left ++ (rest ++ kept), i ≤ 7 := by
  rcases hleft with rfl | ⟨rfl, rfl⟩
  · exact ⟨kept, rfl, Or.inl rfl, (List.pairwise_append.mp hsorted).2.1, fun i hi => hlow i (List.mem_append_right _ hi)⟩
  · have hempty : rest ++ kept = [] := below_lowest hsorted fun i hi => hlow i (List.mem_append_right _ hi)
    obtain ⟨rfl, rfl⟩ := List.append_eq_nil_iff.mp hempty
    exact ⟨[7], rfl, Or.inr ⟨rfl, rfl⟩, hsorted, hlow⟩

section Steps

variable {s : IrqState} {master slave : List ℕ} {v : Served}

/-- The forms of an interrupt that is let through. -/
theorem IrqState.Delivers.forms (h : s.Delivers v) :
    (∃ n < 16, n ≠ 2 ∧ v = .irq n) ∨ v = .spuriousMaster ∨ v = .spuriousSlave :=
  h.2.2.2.imp_right (Or.imp And.left And.left)

/-- An interrupt that is let through runs on top of the others. -/
theorem InService.deliver (h : InService s master slave) (hmay : s.Delivers v) : InService (s.step (.deliver v)) master slave := by
  obtain ⟨hlowMaster, hlowSlave⟩ := Served.low hmay.forms
  refine ⟨?_, ?_, ⟨pairwise_option h.sorted.1 hmay.2.1, pairwise_option h.sorted.2 hmay.2.2.1⟩, ⟨?_, ?_⟩, ?_⟩
  · change v.master.toList ++ s.pics.master = (v :: s.running).flatMap _ ++ master
    rw [h.master, List.flatMap_cons, List.append_assoc]
  · change v.slave.toList ++ s.pics.slave = (v :: s.running).flatMap _ ++ slave
    rw [h.slave, List.flatMap_cons, List.append_assoc]
  · exact fun i hi => (List.mem_append.mp hi).elim (hlowMaster i) (h.low.1 i)
  · exact fun i hi => (List.mem_append.mp hi).elim (hlowSlave i) (h.low.2 i)
  · exact List.forall_mem_cons.mpr ⟨hmay.forms, h.running⟩

/-- The interrupt that is handled is the highest one, and what the controllers make of its end. -/
theorem InService.top (h : InService s master slave) {rest : List Served} (hrunning : s.running = v :: rest) :
    ((∃ n < 16, n ≠ 2 ∧ v = .irq n) ∨ v = .spuriousMaster ∨ v = .spuriousSlave) ∧
      s.pics.master = v.master.toList ++ (rest.flatMap (fun v => v.master.toList) ++ master) ∧
      s.pics.slave = v.slave.toList ++ (rest.flatMap (fun v => v.slave.toList) ++ slave) ∧
      run Pics.out s.pics (isrAcknowledge v.type) = ⟨v.left.1 ++ (rest.flatMap (fun v => v.master.toList) ++ master),
        v.left.2 ++ (rest.flatMap (fun v => v.slave.toList) ++ slave)⟩ := by
  have hforms := h.running v (by rw [hrunning]; exact List.mem_cons_self ..)
  have hmaster := h.master
  have hslave := h.slave
  rw [hrunning, List.flatMap_cons, List.append_assoc] at hmaster hslave
  refine ⟨hforms, hmaster, hslave, ?_⟩
  rw [← Served.acknowledge hforms, ← hmaster, ← hslave]

/-- The end of a handler takes its levels out, or leaves the lowest one behind. -/
theorem InService.finish (h : InService s master slave) : ∃ master' slave', InService s.finish master' slave' ∧
    (master' = master ∨ master = [] ∧ master' = [7]) ∧ (slave' = slave ∨ slave = [] ∧ slave' = [7]) := by
  unfold IrqState.finish
  cases hrunning : s.running with
  | nil => exact ⟨master, slave, h, Or.inl rfl, Or.inl rfl⟩
  | cons v rest =>
    obtain ⟨hforms, hmaster, hslave, hpics⟩ := h.top hrunning
    obtain ⟨hleftMaster, hleftSlave⟩ := Served.left_cases hforms
    obtain ⟨master', hm, hmaster', hsortedMaster, hlowMaster⟩ :=
      stays_in_service hleftMaster (hmaster ▸ h.sorted.1) (hmaster ▸ h.low.1)
    obtain ⟨slave', hs, hslave', hsortedSlave, hlowSlave⟩ :=
      stays_in_service hleftSlave (hslave ▸ h.sorted.2) (hslave ▸ h.low.2)
    refine ⟨master', slave', ?_, hmaster', hslave'⟩
    dsimp only
    rw [hpics]
    have hrest := h.running
    rw [hrunning, List.forall_mem_cons] at hrest
    exact ⟨hm, hs, ⟨hsortedMaster, hsortedSlave⟩, ⟨hlowMaster, hlowSlave⟩, hrest.2⟩

/-- When the handlers are left, their levels stay. -/
theorem InService.abandoned (h : InService s master slave) : InService (s.step .abandoned) s.pics.master s.pics.slave :=
  ⟨rfl, rfl, h.sorted, h.low, fun _ hv => absurd hv List.not_mem_nil⟩

/-- Another handler changes nothing. -/
theorem InService.register (h : InService s master slave) (interruptId : ℕ) :
    InService (s.step (.register interruptId)) master slave :=
  ⟨h.master, h.slave, h.sorted, h.low, h.running⟩

/-- A step that does not leave the handlers. -/
theorem InService.step (h : InService s master slave) {e : IrqEvent} (hmay : s.May e) (hstays : e ≠ .abandoned) :
    ∃ master' slave', InService (s.step e) master' slave' ∧ (master' = master ∨ master = [] ∧ master' = [7]) ∧
      (slave' = slave ∨ slave = [] ∧ slave' = [7]) := by
  cases e with
  | deliver v => exact ⟨master, slave, h.deliver hmay, Or.inl rfl, Or.inl rfl⟩
  | returns => exact h.finish
  | abandoned => exact absurd rfl hstays
  | register interruptId => exact ⟨master, slave, h.register interruptId, Or.inl rfl, Or.inl rfl⟩

/-- The lowest levels stay in service once they are. -/
theorem InService.keeps_lowest (h : InService s master slave) (e : IrqEvent) :
    (7 ∈ s.pics.master → 7 ∈ (s.step e).pics.master) ∧ (7 ∈ s.pics.slave → 7 ∈ (s.step e).pics.slave) := by
  cases e with
  | deliver v => exact ⟨List.mem_append_right _, List.mem_append_right _⟩
  | abandoned => exact ⟨id, id⟩
  | register interruptId => exact ⟨id, id⟩
  | returns =>
    change (7 ∈ s.pics.master → 7 ∈ s.finish.pics.master) ∧ (7 ∈ s.pics.slave → 7 ∈ s.finish.pics.slave)
    unfold IrqState.finish
    cases hrunning : s.running with
    | nil => exact ⟨id, id⟩
    | cons v rest =>
      obtain ⟨hforms, hmaster, hslave, hpics⟩ := h.top hrunning
      obtain ⟨hm, hs⟩ := Served.left_lowest hforms
      dsimp only
      rw [hpics, hmaster, hslave]
      simp only [List.mem_append]
      exact ⟨Or.imp_left hm, Or.imp_left hs⟩

end Steps

section Runs

variable {handlers : ℕ → Bool} {events : List IrqEvent}

/-- Nothing is in service at first. -/
theorem inService_first (handlers : ℕ → Bool) : InService (.first handlers) [] [] :=
  ⟨rfl, rfl, ⟨.nil, .nil⟩, ⟨fun _ hi => absurd hi List.not_mem_nil, fun _ hi => absurd hi List.not_mem_nil⟩,
    fun _ hv => absurd hv List.not_mem_nil⟩

/-- What is in service after a run whose handlers all come back. -/
theorem inService_run (hmay : Guarded IrqState.step IrqState.May (.first handlers) events) (hstays : IrqEvent.abandoned ∉ events) :
    ∃ master slave, InService (run IrqState.step (.first handlers) events) master slave ∧
      (∀ i ∈ master, i = 7) ∧ ∀ i ∈ slave, i = 7 := by
  have hguard := hmay.and_mem (p := fun e => e ≠ .abandoned) fun e he heq => hstays (heq ▸ he)
  refine hguard.invariant (fun s => ∃ master slave, InService s master slave ∧ (∀ i ∈ master, i = 7) ∧ ∀ i ∈ slave, i = 7) ?_ ?_
  · rintro s e ⟨master, slave, h, hm, hs⟩ ⟨hne, hguard⟩
    obtain ⟨master', slave', h', hmaster, hslave⟩ := h.step hguard hne
    refine ⟨master', slave', h', ?_, ?_⟩
    · rcases hmaster with rfl | ⟨-, rfl⟩
      · exact hm
      · exact fun i hi => List.mem_singleton.mp hi
    · rcases hslave with rfl | ⟨-, rfl⟩
      · exact hs
      · exact fun i hi => List.mem_singleton.mp hi
  · exact ⟨[], [], inService_first handlers, fun _ hi => absurd hi List.not_mem_nil, fun _ hi => absurd hi List.not_mem_nil⟩

/-- Every step keeps the order. -/
theorem inService_step {s : IrqState} (h : ∃ master slave, InService s master slave) {e : IrqEvent} (hmay : s.May e) :
    ∃ master slave, InService (s.step e) master slave := by
  obtain ⟨master, slave, h⟩ := h
  by_cases hleft : e = .abandoned
  · subst hleft
    exact ⟨_, _, h.abandoned⟩
  · obtain ⟨master', slave', h', -⟩ := h.step hmay hleft
    exact ⟨master', slave', h'⟩

/-- And every run. -/
theorem inService_reached {s : IrqState} (h : ∃ master slave, InService s master slave)
    (hmay : Guarded IrqState.step IrqState.May s events) : ∃ master slave, InService (run IrqState.step s events) master slave :=
  hmay.invariant (fun s => ∃ master slave, InService s master slave) (fun _ _ h hguard => inService_step h hguard) h

/-- A line of the lowest level of its controller that came once is in service for good. -/
theorem lowest_in_service {s : IrqState} (h : ∃ master slave, InService s master slave)
    (hmay : Guarded IrqState.step IrqState.May s events) :
    (7 ∈ s.pics.master ∨ .deliver (.irq 7) ∈ events → 7 ∈ (run IrqState.step s events).pics.master) ∧
      (7 ∈ s.pics.slave ∨ .deliver (.irq 15) ∈ events → 7 ∈ (run IrqState.step s events).pics.slave) := by
  induction events generalizing s with
  | nil => exact ⟨fun h => h.elim id fun h => absurd h List.not_mem_nil, fun h => h.elim id fun h => absurd h List.not_mem_nil⟩
  | cons e rest ih =>
    obtain ⟨master, slave, hs⟩ := h
    obtain ⟨hmaster, hslave⟩ := hs.keeps_lowest e
    obtain ⟨ihmaster, ihslave⟩ := ih (inService_step ⟨master, slave, hs⟩ hmay.1) hmay.2
    constructor
    · rintro (h | h)
      · exact ihmaster (Or.inl (hmaster h))
      · rcases List.mem_cons.mp h with rfl | h
        · exact ihmaster (Or.inl (List.mem_cons_self ..))
        · exact ihmaster (Or.inr h)
    · rintro (h | h)
      · exact ihslave (Or.inl (hslave h))
      · rcases List.mem_cons.mp h with rfl | h
        · exact ihslave (Or.inl (List.mem_cons_self ..))
        · exact ihslave (Or.inr h)

/-- As long as every handler comes back, however interrupts nest and whichever are spurious: what is in service is what runs,
in its order, and perhaps the lowest levels. When nothing runs, every other line with a handler is let through, and the lines
of the lowest levels are if they did not come before. -/
theorem acknowledged (hmay : Guarded IrqState.step IrqState.May (.first handlers) events) (hstays : IrqEvent.abandoned ∉ events) :
    (∃ master slave, InService (run IrqState.step (.first handlers) events) master slave ∧
      (∀ i ∈ master, i = 7) ∧ ∀ i ∈ slave, i = 7) ∧
    ((run IrqState.step (.first handlers) events).running = [] → ∀ n < 16, n ≠ 2 → n ≠ 7 → n ≠ 15 →
      (run IrqState.step (.first handlers) events).handlers (32 + n) = true →
        (run IrqState.step (.first handlers) events).Delivers (.irq n)) ∧
    ∀ n, n = 7 ∨ n = 15 → .deliver (.irq n) ∈ events → ¬ (run IrqState.step (.first handlers) events).Delivers (.irq n) := by
  obtain ⟨master, slave, h, hmaster, hslave⟩ := inService_run hmay hstays
  refine ⟨⟨master, slave, h, hmaster, hslave⟩, fun hidle n hn h2 h7 h15 hhandler => ?_, fun n hlowest hcame hdelivers => ?_⟩
  · have hm := h.master
    have hs := h.slave
    rw [hidle, List.flatMap_nil, List.nil_append] at hm hs
    refine ⟨hhandler, fun level hlevel i hi => ?_, fun level hlevel i hi => ?_, Or.inl ⟨n, hn, h2, rfl⟩⟩
    · obtain rfl := hmaster i (hm ▸ hi)
      obtain rfl := Option.some.inj hlevel
      split <;> omega
    · obtain rfl := hslave i (hs ▸ hi)
      unfold Served.irq at hlevel
      dsimp only at hlevel
      split at hlevel
      · exact absurd hlevel (Option.not_mem_none level)
      · obtain rfl := Option.some.inj hlevel
        omega
  · obtain ⟨hlowMaster, hlowSlave⟩ := lowest_in_service ⟨[], [], inService_first handlers⟩ hmay
    rcases hlowest with rfl | rfl
    · exact Nat.lt_irrefl 7 (hdelivers.2.1 7 rfl 7 (hlowMaster (Or.inr hcame)))
    · exact Nat.lt_irrefl 7 (hdelivers.2.2.1 7 rfl 7 (hlowSlave (Or.inr hcame)))

/-- A level that is in service when its handler is left for good stays there. -/
theorem abandoned_in_service {s : IrqState} {i : ℕ} (h : ∃ master slave, InService s master slave ∧ i ∈ master)
    (hmay : Guarded IrqState.step IrqState.May s events) :
    ∃ master slave, InService (run IrqState.step s events) master slave ∧ i ∈ master := by
  refine hmay.invariant (fun s => ∃ master slave, InService s master slave ∧ i ∈ master) ?_ h
  rintro s e ⟨master, slave, h, hi⟩ hguard
  by_cases hleft : e = .abandoned
  · subst hleft
    refine ⟨_, _, h.abandoned, ?_⟩
    rw [h.master]
    exact List.mem_append_right _ hi
  · obtain ⟨master', slave', h', hmaster, -⟩ := h.step hguard hleft
    refine ⟨master', slave', h', ?_⟩
    rcases hmaster with rfl | ⟨rfl, -⟩
    · exact hi
    · exact absurd hi List.not_mem_nil

/-- When the handlers are left for good while a level is in service, nothing of this level or a lower one ever comes again; if
it is that of the timer, no interrupt of any line does, not even a spurious one. -/
theorem abandoned_never_acknowledged {later : List IrqEvent} {i : ℕ}
    (hmay : Guarded IrqState.step IrqState.May (.first handlers) (events ++ .abandoned :: later))
    (hi : i ∈ (run IrqState.step (.first handlers) events).pics.master) :
    ∀ v, IrqEvent.deliver v ∈ later → (∀ n ∈ v.master, n < i) ∧ i ≠ 0 := by
  intro v hv
  obtain ⟨before, after, rfl⟩ := List.append_of_mem hv
  obtain ⟨hevents, -, hlater⟩ := hmay.split
  obtain ⟨hbefore, hdelivers, -⟩ := hlater.split
  obtain ⟨master, slave, h⟩ := inService_reached ⟨[], [], inService_first handlers⟩ hevents
  obtain ⟨master', slave', h', hi'⟩ := abandoned_in_service ⟨_, _, h.abandoned, hi⟩ hbefore
  have hservice : i ∈ (run IrqState.step ((run IrqState.step (.first handlers) events).step .abandoned) before).pics.master := by
    rw [h'.master]
    exact List.mem_append_right _ hi'
  have habove : ∀ n ∈ v.master, n < i := fun n hn => hdelivers.2.1 n hn i hservice
  refine ⟨habove, ?_⟩
  rintro rfl
  rcases hdelivers.2.2.2 with ⟨n, -, -, rfl⟩ | ⟨-, hnone⟩ | ⟨rfl, -⟩
  · exact Nat.not_lt_zero _ (habove _ rfl)
  · exact hnone hservice
  · exact Nat.not_lt_zero _ (habove 2 rfl)

end Runs

/-- The first interrupt of a line, with all handlers there. -/
theorem delivers_first {n : ℕ} (hn : n < 16) (h2 : n ≠ 2) : (IrqState.first fun _ => true).Delivers (.irq n) :=
  ⟨rfl, fun _ _ _ hi => absurd hi List.not_mem_nil, fun _ _ _ hi => absurd hi List.not_mem_nil, Or.inl ⟨n, hn, h2, rfl⟩⟩

/-- The printer's line comes once, and never again. -/
theorem acknowledged_printer : ¬ (run IrqState.step (.first fun _ => true) [.deliver (.irq 7), .returns]).Delivers (.irq 7) :=
  (@acknowledged (fun _ => true) [.deliver (.irq 7), .returns]
    ⟨delivers_first (by decide) (by decide), True.intro, True.intro⟩ (by simp)).2.2 7 (Or.inl rfl)
    (List.mem_cons_self ..)

/-- When the handler of line 3 is left for good and the timer has come and gone, line 4 is held back all the same. -/
theorem abandoned_never_acknowledged_serial :
    let s := (run IrqState.step (.first fun _ => true) [.deliver (.irq 3)]).step .abandoned
    s.Delivers (.irq 0) ∧ ¬ (run IrqState.step s [.deliver (.irq 0), .returns]).Delivers (.irq 4) := by
  intro s
  have htimer : s.Delivers (.irq 0) :=
    ⟨rfl, by simp [s, LetThrough, IrqState.step, IrqState.first, Served.irq, run],
      by simp [s, LetThrough, IrqState.step, IrqState.first, Served.irq, run], Or.inl ⟨0, by decide, by decide, rfl⟩⟩
  refine ⟨htimer, fun hline => ?_⟩
  have hbelow := (@abandoned_never_acknowledged (fun _ => true) [.deliver (.irq 3)]
    [.deliver (.irq 0), .returns, .deliver (.irq 4)] 3
    ⟨delivers_first (by decide) (by decide), True.intro, htimer, True.intro, hline, True.intro⟩ (by decide)
    (.irq 4) (by simp)).1 4 rfl
  exact absurd hbelow (by decide)

end Cthulhu
