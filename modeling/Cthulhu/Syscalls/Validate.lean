import Mathlib.Data.Nat.Find
import Cthulhu.Memory.Paging

/-!
# Validation of user pointers

`validate_address` with the two functions it rests on: `check_mem_state`, which tests one
address in each page of the range, and `repair_memory`, which allocates the pages reserved on
demand. Every system call that takes a pointer relies on it.

The end of the range is a wrapped sum and the tested address wraps too, so the loop of
`check_mem_state` may run forever; it is given fuel, and a call that returns does so with some
fuel. The buffer of waiting pages is a list here; the source tests its bound the wrong way round and
can write past its end, which `Syscalls.CheckState` models.
-/

namespace Cthulhu

open Lib

/-- `memstate_t`. -/
inductive MemState
  | okay
  | swapped
  | allocondem
  | cow
  | notpresent
  | einvalid
  deriving DecidableEq, Repr

/-- `MAX_CHECKED_ELEMENTS`. -/
def maxCheckedElements : ℕ := 0x512

/-- The body shared by the swapped and the on-demand branch of `check_mem_state`: the first such
page sets the state, a page of that kind is stored, and another kind returns the state. -/
def storeWaiting (kind : MemState) (value : ℕ) (mstate : MemState) (stored : List ℕ) :
    Except MemState (MemState × List ℕ) :=
  let mstate := if mstate = .einvalid then kind else mstate
  if mstate = kind ∨ stored.length ≥ maxCheckedElements then .ok (mstate, stored ++ [value]) else .error mstate

namespace Machine

variable (m : Machine)

/-- One round of `check_mem_state`'s loop; an error is the value it returns. -/
def checkRound (addr : ℕ) (mstate : MemState) (stored : List ℕ) : Except MemState (MemState × List ℕ) :=
  match (m.getPage addr m.activePage false false).1 with
  | none => .error .notpresent
  | some p =>
    let page := m.load p
    if present page then .ok (mstate, stored)
    else if bit page 1 then
      if bit page 2 then storeWaiting .swapped (page / 2 ^ 16) mstate stored
      else if bit page 3 then storeWaiting .allocondem addr mstate stored
      else .ok (mstate, stored)
    else .error .notpresent

/-- The loop of `check_mem_state` from `addr` on. -/
def checkLoop (limit : ℕ) : ℕ → ℕ → MemState → List ℕ → Option (MemState × List ℕ)
  | 0, _, _, _ => none
  | fuel + 1, addr, mstate, stored =>
    if addr < limit then
      match m.checkRound addr mstate stored with
      | .error result => some (result, stored)
      | .ok (mstate, stored) => checkLoop limit fuel (add64 addr 0x1000) mstate stored
    else some (.okay, stored)

/-- `check_mem_state`: the state and the stored pages. -/
def checkMemState (fuel address size : ℕ) : Option (MemState × List ℕ) :=
  m.checkLoop (add64 address size) fuel address .einvalid []

/-- The request `repair_memory` makes for one stored page. -/
def repairRequest (b : ℕ) : AllocInfo where
  start := b
  amount := 0x1000
  exec := false
  finished := false
  aod := false

/-- One round of `repair_memory`'s loop; the flag says that it stopped. -/
def repairRound (st : Machine × Bool) (b : ℕ) : Machine × Bool :=
  if st.2 then st
  else
    let r := st.1.allocateMem (repairRequest b) false false st.1.activePage fun _ => 0
    (r.2, !r.1.finished)

/-- `repair_memory`: the value returned, whether the continuation is set, and the machine. -/
def repairMemory (state : MemState) (stored : List ℕ) : Bool × Bool × Machine :=
  match state with
  | .okay => (true, false, m)
  | .allocondem =>
    let st := run repairRound (m, false) stored
    (!st.2, st.2, st.1)
  | .notpresent | .einvalid | .cow | .swapped => (false, false, m)

/-- `validate_address`; no value while the check has not finished. -/
def validateAddress (fuel address size : ℕ) : Option (Bool × Bool × Machine) :=
  (m.checkMemState fuel address size).map fun r =>
    if r.1 ≠ .okay then m.repairMemory r.1 r.2 else (true, false, m)

/-- The byte at `b` is on a page that is present and user-accessible in the active space. -/
def UserPage (b : ℕ) : Prop :=
  ∃ p, (m.getPage b m.activePage false false).1 = some p ∧ present (m.load p) = true ∧ bit (m.load p) 2 = true

/-- What a validated pointer is trusted for: the range does not wrap, lies below the kernel half,
and every byte of it is on a user page. -/
def Accessible (address size : ℕ) : Prop :=
  address + size < 2 ^ 64 ∧ ∀ b, address ≤ b → b < address + size → b < 0x800000000000 ∧ m.UserPage b

/-- Whenever `validate_address` returns true, the range is accessible afterwards. -/
def ValidationSound (address size : ℕ) : Prop :=
  ∀ fuel r, m.validateAddress fuel address size = some r → r.1 = true → r.2.2.Accessible address size

end Machine

/-- What `check_mem_state` can find in a page-table entry: `idle` is a valid entry that is neither
swapped out nor reserved on demand. -/
inductive PageClass
  | missing
  | present
  | idle
  | swapped
  | onDemand
  deriving DecidableEq, Repr

/-- The page waits for its content. -/
def PageClass.waiting : PageClass → Bool
  | .swapped | .onDemand => true
  | _ => false

namespace Machine

variable (m : Machine)

/-- The class of the page that an address is on. -/
def pageClass (addr : ℕ) : PageClass :=
  match (m.getPage addr m.activePage false false).1 with
  | none => .missing
  | some p =>
    let page := m.load p
    if Cthulhu.present page then .present
    else if !bit page 1 then .missing
    else if bit page 2 then .swapped
    else if bit page 3 then .onDemand
    else .idle

end Machine

section Scan

variable (m : Machine) (address size : ℕ)

/-- The classes of the pages tested before round `n`. -/
def testedClasses (n : ℕ) : List PageClass := (List.range n).map fun i => m.pageClass (nthPage address i)

/-- The kind of the first waiting page tested before round `n`. -/
def firstWaiting (n : ℕ) : Option PageClass := (testedClasses m address n).find? PageClass.waiting

/-- The number of waiting pages tested before round `n`. -/
def waitingCount (n : ℕ) : ℕ := (testedClasses m address n).countP PageClass.waiting

/-- A page of kind `found` is tested in round `n`, the first waiting page was of kind `first`, and
the buffer is not full. -/
def Mixes (first found : PageClass) (n : ℕ) : Prop :=
  m.pageClass (nthPage address n) = found ∧ firstWaiting m address n = some first ∧
    waitingCount m address n < maxCheckedElements

/-- Round `n` tests a missing page, or an on-demand page after a swapped one. -/
def RefusedAt (n : ℕ) : Prop :=
  m.pageClass (nthPage address n) = .missing ∨ Mixes m address .swapped .onDemand n

/-- Round `n` tests a page below the end of the range. -/
def InRange (n : ℕ) : Prop := nthPage address n < add64 address size

/-- Every round before `n` tests a page of the range and goes on. -/
def PassedBefore (n : ℕ) : Prop :=
  ∀ i < n, InRange address size i ∧ ¬ RefusedAt m address i ∧ ¬ Mixes m address .onDemand .swapped i

/-- The first page that stops the check makes it fail. -/
def Refused : Prop := ∃ n, PassedBefore m address size n ∧ InRange address size n ∧ RefusedAt m address n

/-- The first page that stops the check is a swapped page after an on-demand one. -/
def DemandMix : Prop :=
  ∃ n, PassedBefore m address size n ∧ InRange address size n ∧ Mixes m address .onDemand .swapped n

/-- No page stops the check, and the end of the range is never passed. -/
def Endless : Prop := ∀ n, PassedBefore m address size n

end Scan

/-- The state that a first waiting page of the given kind leaves. -/
def waitingState : Option PageClass → MemState
  | some .swapped => .swapped
  | some .onDemand => .allocondem
  | _ => .einvalid

section Rounds

variable {m : Machine} {address : ℕ}

/-- The classes tested before the next round. -/
theorem testedClasses_succ (n : ℕ) : testedClasses m address (n + 1) =
    testedClasses m address n ++ [m.pageClass (nthPage address n)] := by
  unfold testedClasses
  rw [List.range_succ, List.map_append, List.map_singleton]

/-- A page that does not wait leaves the first waiting page and their number. -/
theorem waiting_succ_of_not {n : ℕ} (h : (m.pageClass (nthPage address n)).waiting = false) :
    firstWaiting m address (n + 1) = firstWaiting m address n ∧
      waitingCount m address (n + 1) = waitingCount m address n := by
  unfold firstWaiting waitingCount
  rw [testedClasses_succ, List.find?_append, List.countP_append]
  simp [h]

/-- A waiting page is counted, and is the first one if there was none. -/
theorem waiting_succ_of_waiting {n : ℕ} (h : (m.pageClass (nthPage address n)).waiting = true) :
    firstWaiting m address (n + 1) = (firstWaiting m address n).or (some (m.pageClass (nthPage address n))) ∧
      waitingCount m address (n + 1) = waitingCount m address n + 1 := by
  unfold firstWaiting waitingCount
  rw [testedClasses_succ, List.find?_append, List.countP_append]
  simp [h]

/-- The first waiting page is swapped out or reserved on demand. -/
theorem firstWaiting_cases (m : Machine) (address n : ℕ) : firstWaiting m address n = none ∨
    firstWaiting m address n = some .swapped ∨ firstWaiting m address n = some .onDemand := by
  cases hfirst : firstWaiting m address n with
  | none => exact Or.inl rfl
  | some c =>
    have hwaiting := List.find?_some hfirst
    cases c with
    | swapped => exact Or.inr (Or.inl rfl)
    | onDemand => exact Or.inr (Or.inr rfl)
    | missing => cases hwaiting
    | present => cases hwaiting
    | idle => cases hwaiting

/-- One round, by the class of the page it tests. -/
theorem checkRound_eq (addr : ℕ) (mstate : MemState) (stored : List ℕ) :
    ∃ gpsId, m.checkRound addr mstate stored = match m.pageClass addr with
      | .missing => .error .notpresent
      | .present | .idle => .ok (mstate, stored)
      | .swapped => storeWaiting .swapped gpsId mstate stored
      | .onDemand => storeWaiting .allocondem addr mstate stored := by
  unfold Machine.checkRound Machine.pageClass
  cases (m.getPage addr m.activePage false false).1 with
  | none => exact ⟨0, rfl⟩
  | some p =>
    refine ⟨m.load p / 2 ^ 16, ?_⟩
    cases hpresent : present (m.load p) <;> cases hvalid : bit (m.load p) 1 <;>
      cases hswapped : bit (m.load p) 2 <;> cases hdemand : bit (m.load p) 3 <;>
      simp [hpresent, hvalid, hswapped, hdemand]

/-- A round that goes on keeps the state of the first waiting page and stores one page for each
waiting one. -/
theorem checkRound_passed {n : ℕ} (hrefused : ¬ RefusedAt m address n)
    (hmix : ¬ Mixes m address .onDemand .swapped n) {stored : List ℕ}
    (hstored : stored.length = waitingCount m address n) :
    ∃ stored', stored'.length = waitingCount m address (n + 1) ∧
      m.checkRound (nthPage address n) (waitingState (firstWaiting m address n)) stored =
        .ok (waitingState (firstWaiting m address (n + 1)), stored') := by
  obtain ⟨gpsId, hround⟩ := checkRound_eq (m := m) (nthPage address n)
    (waitingState (firstWaiting m address n)) stored
  rw [RefusedAt, not_or] at hrefused
  rw [hround]
  cases hclass : m.pageClass (nthPage address n) with
  | missing => exact absurd hclass hrefused.1
  | present =>
    have hidle : (m.pageClass (nthPage address n)).waiting = false := by rw [hclass]; rfl
    obtain ⟨hfirst, hcount⟩ := waiting_succ_of_not hidle
    exact ⟨stored, by rw [hcount, hstored], by rw [hfirst]⟩
  | idle =>
    have hidle : (m.pageClass (nthPage address n)).waiting = false := by rw [hclass]; rfl
    obtain ⟨hfirst, hcount⟩ := waiting_succ_of_not hidle
    exact ⟨stored, by rw [hcount, hstored], by rw [hfirst]⟩
  | swapped =>
    have hwaiting : (m.pageClass (nthPage address n)).waiting = true := by rw [hclass]; rfl
    obtain ⟨hfirst, hcount⟩ := waiting_succ_of_waiting hwaiting
    refine ⟨stored ++ [gpsId], by rw [hcount, List.length_append, hstored, List.length_singleton], ?_⟩
    rw [hfirst, hclass]
    rcases firstWaiting_cases m address n with hnone | hsame | hother
    · simp [hnone, waitingState, storeWaiting]
    · simp [hsame, waitingState, storeWaiting]
    · have hfull : maxCheckedElements ≤ stored.length := by
        rw [hstored]
        exact Nat.le_of_not_lt fun hlt => hmix ⟨hclass, hother, hlt⟩
      simp [hother, waitingState, storeWaiting, hfull]
  | onDemand =>
    have hwaiting : (m.pageClass (nthPage address n)).waiting = true := by rw [hclass]; rfl
    obtain ⟨hfirst, hcount⟩ := waiting_succ_of_waiting hwaiting
    refine ⟨stored ++ [nthPage address n],
      by rw [hcount, List.length_append, hstored, List.length_singleton], ?_⟩
    rw [hfirst, hclass]
    rcases firstWaiting_cases m address n with hnone | hother | hsame
    · simp [hnone, waitingState, storeWaiting]
    · have hfull : maxCheckedElements ≤ stored.length := by
        rw [hstored]
        exact Nat.le_of_not_lt fun hlt => hrefused.2 ⟨hclass, hother, hlt⟩
      simp [hother, waitingState, storeWaiting, hfull]
    · simp [hsame, waitingState, storeWaiting]

/-- A round that refuses ends the check with a state that is not repaired. -/
theorem checkRound_refused {n : ℕ} (hrefused : RefusedAt m address n) {stored : List ℕ}
    (hstored : stored.length = waitingCount m address n) :
    ∃ state, (state = .notpresent ∨ state = .swapped) ∧
      m.checkRound (nthPage address n) (waitingState (firstWaiting m address n)) stored = .error state := by
  obtain ⟨gpsId, hround⟩ := checkRound_eq (m := m) (nthPage address n)
    (waitingState (firstWaiting m address n)) stored
  rw [hround]
  rcases hrefused with hmissing | ⟨hclass, hfirst, hlt⟩
  · exact ⟨.notpresent, Or.inl rfl, by rw [hmissing]⟩
  · have hroom : ¬ maxCheckedElements ≤ stored.length := by
      rw [hstored]
      exact Nat.not_le_of_lt hlt
    refine ⟨.swapped, Or.inr rfl, ?_⟩
    rw [hclass, hfirst]
    simp [waitingState, storeWaiting, hroom]

/-- A swapped page after an on-demand one ends the check with the state of the first. -/
theorem checkRound_mixes {n : ℕ} (hmix : Mixes m address .onDemand .swapped n) {stored : List ℕ}
    (hstored : stored.length = waitingCount m address n) :
    m.checkRound (nthPage address n) (waitingState (firstWaiting m address n)) stored = .error .allocondem := by
  obtain ⟨gpsId, hround⟩ := checkRound_eq (m := m) (nthPage address n)
    (waitingState (firstWaiting m address n)) stored
  obtain ⟨hclass, hfirst, hlt⟩ := hmix
  have hroom : ¬ maxCheckedElements ≤ stored.length := by
    rw [hstored]
    exact Nat.not_le_of_lt hlt
  rw [hround, hclass, hfirst]
  simp [waitingState, storeWaiting, hroom]

end Rounds

section Loop

variable {m : Machine} {address size : ℕ}

/-- The rounds that pass are made one after the other. -/
theorem checkLoop_passed {n : ℕ} (h : PassedBefore m address size n) (fuel : ℕ) :
    ∃ stored, stored.length = waitingCount m address n ∧
      m.checkMemState (n + fuel) address size =
        m.checkLoop (add64 address size) fuel (nthPage address n) (waitingState (firstWaiting m address n))
          stored := by
  induction n generalizing fuel with
  | zero => exact ⟨[], rfl, by rw [Nat.zero_add]; rfl⟩
  | succ n ih =>
    obtain ⟨stored, hstored, hloop⟩ := ih (fun i hi => h i (Nat.lt_succ_of_lt hi)) (fuel + 1)
    obtain ⟨hrange, hrefused, hmix⟩ := h n (Nat.lt_succ_self n)
    obtain ⟨stored', hstored', hround⟩ := checkRound_passed hrefused hmix hstored
    unfold InRange at hrange
    refine ⟨stored', hstored', ?_⟩
    rw [show n + 1 + fuel = n + (fuel + 1) by omega, hloop, Machine.checkLoop, if_pos hrange, hround]
    rfl

/-- Less fuel than rounds gives no value. -/
theorem checkMemState_short {n fuel : ℕ} (h : PassedBefore m address size n) (hfuel : fuel ≤ n) :
    m.checkMemState fuel address size = none := by
  obtain ⟨stored, _, hloop⟩ := checkLoop_passed (n := fuel) (fun i hi => h i (by omega)) 0
  exact hloop

/-- A check that goes on forever never returns. -/
theorem Endless.sound (h : Endless m address size) : m.ValidationSound address size := by
  intro fuel r hr
  rw [Machine.validateAddress, checkMemState_short (h fuel) (Nat.le_refl fuel)] at hr
  cases hr

/-- A check whose round ends it returns the state of that round. -/
theorem checkMemState_stopped {n : ℕ} {P : MemState → Prop} (hpassed : PassedBefore m address size n)
    (hrange : InRange address size n)
    (hround : ∀ stored : List ℕ, stored.length = waitingCount m address n → ∃ state, P state ∧
      m.checkRound (nthPage address n) (waitingState (firstWaiting m address n)) stored = .error state)
    (fuel : ℕ) : ∃ state stored, P state ∧ m.checkMemState (n + (fuel + 1)) address size = some (state, stored) := by
  obtain ⟨stored, hstored, hloop⟩ := checkLoop_passed hpassed (fuel + 1)
  obtain ⟨state, hP, hstate⟩ := hround stored hstored
  unfold InRange at hrange
  rw [Machine.checkLoop, if_pos hrange, hstate] at hloop
  exact ⟨state, stored, hP, hloop⟩

/-- A check that is refused makes the validation fail. -/
theorem Refused.sound (h : Refused m address size) : m.ValidationSound address size := by
  obtain ⟨n, hpassed, hrange, hrefused⟩ := h
  intro fuel r hr htrue
  rcases Nat.lt_or_ge n fuel with hlong | hshort
  · obtain ⟨rest, rfl⟩ : ∃ rest, fuel = n + (rest + 1) := ⟨fuel - n - 1, by omega⟩
    obtain ⟨state, stored, hstate, hcheck⟩ := checkMemState_stopped hpassed hrange
      (fun _ => checkRound_refused hrefused) rest
    rw [Machine.validateAddress, hcheck] at hr
    rcases hstate with rfl | rfl
    · simp only [Option.map_some, Option.some.injEq] at hr
      subst hr
      cases htrue
    · simp only [Option.map_some, Option.some.injEq] at hr
      subst hr
      cases htrue
  · rw [Machine.validateAddress, checkMemState_short hpassed hshort] at hr
    cases hr

/-- A check that comes to the end of the range makes the validation succeed and change nothing. -/
theorem validateAddress_finished {n : ℕ} (hpassed : PassedBefore m address size n) (hend : ¬ InRange address size n)
    (fuel : ℕ) : m.validateAddress (n + (fuel + 1)) address size = some (true, false, m) := by
  obtain ⟨stored, _, hloop⟩ := checkLoop_passed hpassed (fuel + 1)
  unfold InRange at hend
  rw [Machine.checkLoop, if_neg hend] at hloop
  rw [Machine.validateAddress, hloop]
  rfl

/-- The only value of a check that comes to the end of the range. -/
theorem validateAddress_eq_of_finished {n fuel : ℕ} {r : Bool × Bool × Machine}
    (hpassed : PassedBefore m address size n) (hend : ¬ InRange address size n)
    (hr : m.validateAddress fuel address size = some r) : r = (true, false, m) := by
  rcases Nat.lt_or_ge n fuel with hlong | hshort
  · obtain ⟨rest, rfl⟩ : ∃ rest, fuel = n + (rest + 1) := ⟨fuel - n - 1, by omega⟩
    rw [validateAddress_finished hpassed hend rest, Option.some.injEq] at hr
    exact hr.symm
  · rw [Machine.validateAddress, checkMemState_short hpassed hshort] at hr
    cases hr

/-- The check is refused, stops at a mix, goes on forever, or comes to the end of the range. -/
theorem check_cases (m : Machine) (address size : ℕ) : Refused m address size ∨ DemandMix m address size ∨
    Endless m address size ∨ ∃ n, PassedBefore m address size n ∧ ¬ InRange address size n := by
  classical
  by_cases hendless : Endless m address size
  · exact Or.inr (Or.inr (Or.inl hendless))
  · obtain ⟨k, hk⟩ := not_forall.mp hendless
    have hstops : ∃ i, ¬ (InRange address size i ∧ ¬ RefusedAt m address i ∧
        ¬ Mixes m address .onDemand .swapped i) := by
      by_contra hall
      exact hk fun i _ => not_not.mp fun hi => hall ⟨i, hi⟩
    have hpassed : PassedBefore m address size (Nat.find hstops) :=
      fun j hj => not_not.mp (Nat.find_min hstops hj)
    have hstop := Nat.find_spec hstops
    by_cases hrange : InRange address size (Nat.find hstops)
    · by_cases hrefused : RefusedAt m address (Nat.find hstops)
      · exact Or.inl ⟨_, hpassed, hrange, hrefused⟩
      · by_cases hmix : Mixes m address .onDemand .swapped (Nat.find hstops)
        · exact Or.inr (Or.inl ⟨_, hpassed, hrange, hmix⟩)
        · exact absurd ⟨hrange, hrefused, hmix⟩ hstop
    · exact Or.inr (Or.inr (Or.inr ⟨_, hpassed, hrange⟩))

end Loop

/-- Where the range is accessible the rounds made test its own pages. -/
theorem nthPage_of_accessible {m : Machine} {address size n : ℕ} (haccessible : m.Accessible address size)
    (h : ∀ i ≤ n, InRange address size i) :
    nthPage address n = address + 0x1000 * n ∧ nthPage address n < address + size := by
  obtain ⟨hwrap, hbytes⟩ := haccessible
  have hlimit (i : ℕ) (hi : i ≤ n) : nthPage address i < address + size := by
    have hrange := h i hi
    unfold InRange at hrange
    rwa [add64_of_lt hwrap] at hrange
  refine ⟨?_, hlimit n (Nat.le_refl n)⟩
  induction n with
  | zero => rfl
  | succ n ih =>
    have hbefore := ih (fun i hi => h i (Nat.le_succ_of_le hi)) fun i hi => hlimit i (Nat.le_succ_of_le hi)
    have hlow := (hbytes _ (by omega) (hlimit n (Nat.le_succ n))).1
    rw [hbefore] at hlow
    rw [nthPage, hbefore, add64_of_lt (by omega)]
    omega

/-- Where the range is accessible every page tested is present. -/
theorem pageClass_of_accessible {m : Machine} {address size n : ℕ} (haccessible : m.Accessible address size)
    (h : ∀ i ≤ n, InRange address size i) : m.pageClass (nthPage address n) = .present := by
  obtain ⟨htested, hbelow⟩ := nthPage_of_accessible haccessible h
  obtain ⟨_, p, hpage, hpresent, _⟩ := haccessible.2 _ (by omega) hbelow
  unfold Machine.pageClass
  simp [hpage, hpresent]

/-- The check of an accessible range comes to its end. -/
theorem finished_of_accessible {m : Machine} {address size : ℕ} (haccessible : m.Accessible address size) :
    ∃ n, PassedBefore m address size n ∧ ¬ InRange address size n := by
  have hpresent {n : ℕ} (hpassed : PassedBefore m address size n) (hrange : InRange address size n) :
      m.pageClass (nthPage address n) = .present :=
    pageClass_of_accessible haccessible fun i hi =>
      (Nat.lt_or_eq_of_le hi).elim (fun hlt => (hpassed i hlt).1) fun heq => heq ▸ hrange
  rcases check_cases m address size with ⟨n, hpassed, hrange, hmissing | hmix⟩ | ⟨n, hpassed, hrange, hmix⟩ | hendless |
    hfinished
  · exact absurd (hmissing.symm.trans (hpresent hpassed hrange)) (by decide)
  · exact absurd (hmix.1.symm.trans (hpresent hpassed hrange)) (by decide)
  · exact absurd (hmix.1.symm.trans (hpresent hpassed hrange)) (by decide)
  · have hbelow := nthPage_of_accessible (n := size) haccessible fun i _ => (hendless (i + 1) i (Nat.lt_succ_self i)).1
    omega
  · exact hfinished

/-- The check goes on forever, or it returns. -/
theorem endless_or_returns (m : Machine) (address size : ℕ) :
    Endless m address size ∨ ∃ fuel r, m.validateAddress fuel address size = some r := by
  rcases check_cases m address size with ⟨n, hpassed, hrange, hrefused⟩ | ⟨n, hpassed, hrange, hmix⟩ | hendless |
    ⟨n, hpassed, hend⟩
  · obtain ⟨state, stored, _, hcheck⟩ := checkMemState_stopped hpassed hrange (fun _ => checkRound_refused hrefused) 0
    exact Or.inr ⟨n + 1, _, by rw [Machine.validateAddress, hcheck]; rfl⟩
  · obtain ⟨state, stored, _, hcheck⟩ := checkMemState_stopped (P := fun _ => True) hpassed hrange
      (fun _ hstored => ⟨_, True.intro, checkRound_mixes hmix hstored⟩) 0
    exact Or.inr ⟨n + 1, _, by rw [Machine.validateAddress, hcheck]; rfl⟩
  · exact Or.inl hendless
  · exact Or.inr ⟨n + 1, _, validateAddress_finished hpassed hend 0⟩

/-- A machine with no page table at all. -/
def unmappedMachine : Machine where
  framePool := []
  memory := fun _ _ => 0
  activePage := 0
  memMirrorPresent := true
  tmpHeap := 0
  lockLog := []

end Cthulhu
