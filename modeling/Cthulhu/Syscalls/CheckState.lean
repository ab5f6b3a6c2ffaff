import Cthulhu.Syscalls.Validate

/-!
# The buffer of `check_mem_state`

`check_mem_state` with the buffer it is given: its capacity `maxc`, the number of entries used
when it is called, which `validate_string` carries from one call to the next, and every store as
the value and the index it is written to. The model of `Syscalls.Validate` is the case of an
empty buffer of `MAX_CHECKED_ELEMENTS` entries.

The test of the capacity sits in the same condition as the test of the kind of page, and it is
reversed: a full buffer lets a page of either kind be stored.
-/

namespace Cthulhu

/-- What `check_mem_state` carries through its loop, with the stores it has made. -/
structure CheckState where
  mstate : MemState
  used : ℕ
  stores : List (ℕ × ℕ)
  deriving DecidableEq, Repr

/-- The body shared by the swapped and the on-demand branch; a second component is the value
returned. -/
def CheckState.store (s : CheckState) (maxc : ℕ) (kind : MemState) (value : ℕ) : CheckState × Option MemState :=
  let mstate := if s.mstate = .einvalid then kind else s.mstate
  if mstate = kind ∨ s.used ≥ maxc then (⟨mstate, s.used + 1, s.stores ++ [(value, s.used)]⟩, none)
  else ({ s with mstate }, some mstate)

namespace Machine

variable (m : Machine)

/-- One round of the loop. -/
def checkPage (maxc addr : ℕ) (s : CheckState) : CheckState × Option MemState :=
  match (m.getPage addr m.activePage false false).1 with
  | none => (s, some .notpresent)
  | some p =>
    let page := m.load p
    if present page then (s, none)
    else if bit page 1 then
      if bit page 2 then s.store maxc .swapped (page / 2 ^ 16)
      else if bit page 3 then s.store maxc .allocondem addr
      else (s, none)
    else (s, some .notpresent)

/-- The loop from `addr` on, with no value returned while it has not finished. -/
def checkPages (maxc limit : ℕ) : ℕ → ℕ → CheckState → CheckState × Option MemState
  | 0, _, s => (s, none)
  | fuel + 1, addr, s =>
    if addr < limit then
      match m.checkPage maxc addr s with
      | (s, some result) => (s, some result)
      | (s, none) => checkPages maxc limit fuel (add64 addr 0x1000) s
    else (s, some .okay)

/-- `check_mem_state` with a buffer of `maxc` entries of which `usedentries` are used. -/
def checkMemStateInto (fuel address size maxc usedentries : ℕ) : CheckState × Option MemState :=
  m.checkPages maxc (add64 address size) fuel address ⟨.einvalid, usedentries, []⟩

/-- The value stored for a waiting page: the identifier of a swapped page, the tested address of
a page reserved on demand. -/
def pageValue (addr : ℕ) : ℕ :=
  match (m.getPage addr m.activePage false false).1 with
  | none => addr
  | some p => if bit (m.load p) 2 then m.load p / 2 ^ 16 else addr

end Machine

section Buffer

variable {m : Machine}

/-- One round, by the class of the page it tests. -/
theorem checkPage_eq (maxc addr : ℕ) (s : CheckState) : m.checkPage maxc addr s = match m.pageClass addr with
    | .missing => (s, some .notpresent)
    | .present | .idle => (s, none)
    | .swapped => s.store maxc .swapped (m.pageValue addr)
    | .onDemand => s.store maxc .allocondem (m.pageValue addr) := by
  unfold Machine.checkPage Machine.pageClass Machine.pageValue
  cases (m.getPage addr m.activePage false false).1 with
  | none => rfl
  | some p =>
    cases hpresent : present (m.load p) <;> cases hvalid : bit (m.load p) 1 <;>
      cases hswapped : bit (m.load p) 2 <;> cases hdemand : bit (m.load p) 3 <;>
      simp [hpresent, hvalid, hswapped, hdemand]

/-- A store returns without a store, or makes one at the next index. -/
theorem CheckState.store_cases (s : CheckState) (maxc : ℕ) (kind : MemState) (value : ℕ) :
    (∃ mstate, s.store maxc kind value = ({ s with mstate }, some mstate)) ∨
      ∃ mstate, s.store maxc kind value = (⟨mstate, s.used + 1, s.stores ++ [(value, s.used)]⟩, none) := by
  unfold CheckState.store
  generalize (if s.mstate = .einvalid then kind else s.mstate) = mstate
  by_cases hstore : mstate = kind ∨ s.used ≥ maxc
  · exact Or.inr ⟨mstate, if_pos hstore⟩
  · exact Or.inl ⟨mstate, if_neg hstore⟩

/-- A round returns without a store, leaves the state, or makes one store at the next index. -/
theorem checkPage_cases (maxc addr : ℕ) (s : CheckState) :
    (∃ mstate result, m.checkPage maxc addr s = ({ s with mstate }, some result)) ∨
      m.checkPage maxc addr s = (s, none) ∨
      ∃ mstate value, m.checkPage maxc addr s = (⟨mstate, s.used + 1, s.stores ++ [(value, s.used)]⟩, none) := by
  have hstore (kind : MemState) (value : ℕ) (h : m.checkPage maxc addr s = s.store maxc kind value) :
      (∃ mstate result, m.checkPage maxc addr s = ({ s with mstate }, some result)) ∨
        m.checkPage maxc addr s = (s, none) ∨
        ∃ mstate value, m.checkPage maxc addr s = (⟨mstate, s.used + 1, s.stores ++ [(value, s.used)]⟩, none) := by
    rw [h]
    rcases s.store_cases maxc kind value with ⟨mstate, hreturn⟩ | ⟨mstate, hstored⟩
    · exact Or.inl ⟨mstate, mstate, hreturn⟩
    · exact Or.inr (Or.inr ⟨mstate, value, hstored⟩)
  have hround := checkPage_eq (m := m) maxc addr s
  cases hclass : m.pageClass addr with
  | missing => rw [hclass] at hround; exact Or.inl ⟨s.mstate, .notpresent, hround⟩
  | present => rw [hclass] at hround; exact Or.inr (Or.inl hround)
  | idle => rw [hclass] at hround; exact Or.inr (Or.inl hround)
  | swapped => rw [hclass] at hround; exact hstore _ _ hround
  | onDemand => rw [hclass] at hround; exact hstore _ _ hround

/-- The store of `Syscalls.Validate`, read from the buffer. -/
theorem storeWaiting_eq (kind : MemState) (value : ℕ) {s : CheckState} (h : s.used = s.stores.length) :
    storeWaiting kind value s.mstate (s.stores.map Prod.fst) =
      match s.store maxCheckedElements kind value with
      | (t, none) => .ok (t.mstate, t.stores.map Prod.fst)
      | (_, some result) => .error result := by
  unfold storeWaiting CheckState.store
  generalize (if s.mstate = .einvalid then kind else s.mstate) = mstate
  dsimp only
  rw [List.length_map, ← h]
  by_cases hstore : mstate = kind ∨ s.used ≥ maxCheckedElements
  · rw [if_pos hstore, if_pos hstore]
    simp
  · rw [if_neg hstore, if_neg hstore]

/-- The round of `Syscalls.Validate`, read from the buffer. -/
theorem checkRound_eq_checkPage (addr : ℕ) {s : CheckState} (h : s.used = s.stores.length) :
    m.checkRound addr s.mstate (s.stores.map Prod.fst) =
      match m.checkPage maxCheckedElements addr s with
      | (t, none) => .ok (t.mstate, t.stores.map Prod.fst)
      | (_, some result) => .error result := by
  unfold Machine.checkRound Machine.checkPage
  cases (m.getPage addr m.activePage false false).1 with
  | none => rfl
  | some p =>
    dsimp only
    rw [storeWaiting_eq .swapped _ h, storeWaiting_eq .allocondem _ h]
    cases present (m.load p) <;> cases bit (m.load p) 1 <;> cases bit (m.load p) 2 <;> cases bit (m.load p) 3 <;> rfl

/-- The loop of `Syscalls.Validate`, read from the buffer. -/
theorem checkLoop_eq_checkPages (limit fuel addr : ℕ) {s : CheckState} (h : s.used = s.stores.length) :
    m.checkLoop limit fuel addr s.mstate (s.stores.map Prod.fst) =
      (m.checkPages maxCheckedElements limit fuel addr s).2.map fun result =>
        (result, (m.checkPages maxCheckedElements limit fuel addr s).1.stores.map Prod.fst) := by
  induction fuel generalizing addr s with
  | zero => rfl
  | succ fuel ih =>
    rw [Machine.checkLoop, Machine.checkPages]
    by_cases hlimit : addr < limit
    · rw [if_pos hlimit, if_pos hlimit, checkRound_eq_checkPage addr h]
      rcases checkPage_cases (m := m) maxCheckedElements addr s with
        ⟨mstate, result, hround⟩ | hround | ⟨mstate, value, hround⟩
      · rw [hround]
        rfl
      · rw [hround]
        exact ih _ h
      · rw [hround]
        exact ih _ (by rw [List.length_append, ← h]; rfl)
    · rw [if_neg hlimit, if_neg hlimit]
      rfl

/-- `check_mem_state` as `validate_address` calls it. -/
theorem checkMemState_eq (fuel address size : ℕ) : m.checkMemState fuel address size =
    (m.checkMemStateInto fuel address size maxCheckedElements 0).2.map fun result =>
      (result, (m.checkMemStateInto fuel address size maxCheckedElements 0).1.stores.map Prod.fst) :=
  checkLoop_eq_checkPages (s := ⟨.einvalid, 0, []⟩) (add64 address size) fuel address rfl

end Buffer

section Scanned

variable (m : Machine) (address used maxc size : ℕ)

/-- The rounds before `n` that test a waiting page. -/
def waitingRounds (n : ℕ) : List ℕ := (List.range n).filter fun i => (m.pageClass (nthPage address i)).waiting

/-- The state before round `n` when no earlier round has returned. -/
def scanned (n : ℕ) : CheckState where
  mstate := waitingState (firstWaiting m address n)
  used := used + waitingCount m address n
  stores := ((waitingRounds m address n).map fun i => m.pageValue (nthPage address i)).zipIdx used

/-- Round `n` tests a waiting page of another kind than the first one. -/
def OtherKind (n : ℕ) : Prop :=
  (m.pageClass (nthPage address n)).waiting = true ∧
    ∃ first, firstWaiting m address n = some first ∧ first ≠ m.pageClass (nthPage address n)

/-- Round `n` returns: its page is missing, or of another kind while the buffer has room. -/
def StopsAt (n : ℕ) : Prop :=
  m.pageClass (nthPage address n) = .missing ∨
    OtherKind m address n ∧ used + waitingCount m address n < maxc

/-- Every round before `n` tests a page of the range and goes on. -/
def ScansTo (n : ℕ) : Prop := ∀ i < n, InRange address size i ∧ ¬ StopsAt m address used maxc i

end Scanned

section Rounds

variable {m : Machine} {address used maxc : ℕ}

/-- As many rounds test a waiting page as waiting pages are counted. -/
theorem length_waitingRounds (n : ℕ) : (waitingRounds m address n).length = waitingCount m address n := by
  unfold waitingRounds waitingCount testedClasses
  rw [List.countP_map, List.countP_eq_length_filter]
  rfl

/-- A page that does not wait leaves the state. -/
theorem scanned_succ_of_not {n : ℕ} (h : (m.pageClass (nthPage address n)).waiting = false) :
    scanned m address used (n + 1) = scanned m address used n := by
  obtain ⟨hfirst, hcount⟩ := waiting_succ_of_not h
  have hrounds : waitingRounds m address (n + 1) = waitingRounds m address n := by
    simp [waitingRounds, List.range_succ, List.filter_append, h]
  unfold scanned
  rw [hfirst, hcount, hrounds]

/-- A waiting page is stored at the next index. -/
theorem scanned_succ_of_waiting {n : ℕ} (h : (m.pageClass (nthPage address n)).waiting = true) :
    scanned m address used (n + 1) =
      { mstate := waitingState ((firstWaiting m address n).or (some (m.pageClass (nthPage address n))))
        used := (scanned m address used n).used + 1
        stores := (scanned m address used n).stores ++
          [(m.pageValue (nthPage address n), (scanned m address used n).used)] } := by
  obtain ⟨hfirst, hcount⟩ := waiting_succ_of_waiting h
  have hrounds : waitingRounds m address (n + 1) = waitingRounds m address n ++ [n] := by
    simp [waitingRounds, List.range_succ, List.filter_append, h]
  unfold scanned
  rw [hfirst, hcount, hrounds, List.map_append, List.zipIdx_append, List.length_map, length_waitingRounds]
  rfl

/-- A round with a waiting page stores it under its kind. -/
theorem checkPage_of_waiting {addr : ℕ} (h : (m.pageClass addr).waiting = true) (s : CheckState) :
    m.checkPage maxc addr s = s.store maxc (waitingState (some (m.pageClass addr))) (m.pageValue addr) := by
  rw [checkPage_eq]
  cases hclass : m.pageClass addr <;> rw [hclass] at h <;> first | rfl | cases h

/-- Two waiting pages leave the same state only if they are of one kind. -/
theorem waitingState_inj {c d : PageClass} (hc : c.waiting = true) (hd : d.waiting = true)
    (h : waitingState (some c) = waitingState (some d)) : c = d := by
  revert hc hd h
  cases c <;> cases d <;> decide

/-- A waiting page leaves a state. -/
theorem waitingState_ne_einvalid {c : PageClass} (hc : c.waiting = true) : waitingState (some c) ≠ .einvalid := by
  revert hc
  cases c <;> decide

/-- The first waiting page waits. -/
theorem waiting_of_firstWaiting {n : ℕ} {c : PageClass} (h : firstWaiting m address n = some c) : c.waiting = true :=
  List.find?_some h

/-- A round that does not return leaves the next state. -/
theorem checkPage_passed {n : ℕ} (h : ¬ StopsAt m address used maxc n) :
    m.checkPage maxc (nthPage address n) (scanned m address used n) = (scanned m address used (n + 1), none) := by
  rw [StopsAt, not_or] at h
  obtain ⟨hmissing, hother⟩ := h
  cases hwaiting : (m.pageClass (nthPage address n)).waiting with
  | false =>
    rw [scanned_succ_of_not hwaiting, checkPage_eq]
    cases hclass : m.pageClass (nthPage address n) with
    | missing => exact absurd hclass hmissing
    | present => rfl
    | idle => rfl
    | swapped => rw [hclass] at hwaiting; cases hwaiting
    | onDemand => rw [hclass] at hwaiting; cases hwaiting
  | true =>
    rw [scanned_succ_of_waiting hwaiting, checkPage_of_waiting hwaiting]
    cases hfirst : firstWaiting m address n with
    | none => simp [CheckState.store, scanned, hfirst, waitingState]
    | some first =>
      have hset := waitingState_ne_einvalid (waiting_of_firstWaiting hfirst)
      by_cases hsame : first = m.pageClass (nthPage address n)
      · subst hsame
        simp [CheckState.store, scanned, hfirst, hset]
      · have hfull : maxc ≤ used + waitingCount m address n :=
          Nat.le_of_not_lt fun hlt => hother ⟨⟨hwaiting, first, hfirst, hsame⟩, hlt⟩
        simp [CheckState.store, scanned, hfirst, hset, hfull]

/-- A round with a missing page returns. -/
theorem checkPage_missing {addr : ℕ} (h : m.pageClass addr = .missing) (s : CheckState) :
    m.checkPage maxc addr s = (s, some .notpresent) := by
  rw [checkPage_eq, h]

/-- A round with a page of another kind returns the kind of the first waiting page. -/
theorem checkPage_other {n : ℕ} (hother : OtherKind m address n) (hroom : used + waitingCount m address n < maxc) :
    m.checkPage maxc (nthPage address n) (scanned m address used n) =
      (scanned m address used n, some (waitingState (firstWaiting m address n))) := by
  obtain ⟨hwaiting, first, hfirst, hne⟩ := hother
  have hfirstWaiting := waiting_of_firstWaiting hfirst
  have hset := waitingState_ne_einvalid hfirstWaiting
  have hkind : waitingState (some first) ≠ waitingState (some (m.pageClass (nthPage address n))) :=
    fun h => hne (waitingState_inj hfirstWaiting hwaiting h)
  rw [checkPage_of_waiting hwaiting]
  simp [CheckState.store, scanned, hfirst, hset, hkind, Nat.not_le.mpr hroom]

end Rounds

section Loop

variable {m : Machine} {address used maxc size : ℕ}

/-- The rounds that go on are made one after the other. -/
theorem ScansTo.checkMemStateInto {n : ℕ} (h : ScansTo m address used maxc size n) (fuel : ℕ) :
    m.checkMemStateInto (n + fuel) address size maxc used =
      m.checkPages maxc (add64 address size) fuel (nthPage address n) (scanned m address used n) := by
  induction n generalizing fuel with
  | zero => rw [Nat.zero_add]; rfl
  | succ n ih =>
    obtain ⟨hrange, hgoes⟩ := h n (Nat.lt_succ_self n)
    have hbefore := ih (fun i hi => h i (Nat.lt_succ_of_lt hi)) (fuel + 1)
    unfold InRange at hrange
    rw [show n + 1 + fuel = n + (fuel + 1) by omega, hbefore, Machine.checkPages, if_pos hrange, checkPage_passed hgoes]
    rfl

/-- Every store goes to an index below the capacity. -/
def StoresInside (m : Machine) (address size maxc used : ℕ) : Prop :=
  ∀ fuel, ∀ e ∈ (m.checkMemStateInto fuel address size maxc used).1.stores, e.2 < maxc

/-- Each waiting page that is tested before a missing page and before the second waiting page of
another kind has a free entry, the entries being taken in order. -/
def RoomForWaiting (m : Machine) (address size maxc used : ℕ) : Prop :=
  ∀ n, (∀ i < n, InRange address size i ∧ m.pageClass (nthPage address i) ≠ .missing ∧ ¬ OtherKind m address i) →
    InRange address size n → (m.pageClass (nthPage address n)).waiting = true →
      used + waitingCount m address n < maxc

/-- Rounds that test neither a missing page nor one of another kind go on. -/
theorem scansTo_of_ordinary (used maxc : ℕ) {n : ℕ}
    (h : ∀ i < n, InRange address size i ∧ m.pageClass (nthPage address i) ≠ .missing ∧ ¬ OtherKind m address i) :
    ScansTo m address used maxc size n := by
  intro i hi
  obtain ⟨hrange, hmissing, hother⟩ := h i hi
  refine ⟨hrange, ?_⟩
  rintro (hmiss | ⟨hkind, _⟩)
  · exact hmissing hmiss
  · exact hother hkind

/-- A waiting page that is reached while the buffer is full is stored past its end. -/
theorem StoresInside.room (h : StoresInside m address size maxc used) : RoomForWaiting m address size maxc used := by
  intro n hordinary hrange hwaiting
  unfold InRange at hrange
  by_contra hfull
  have hgoes : ¬ StopsAt m address used maxc n := by
    rintro (hmissing | ⟨_, hroom⟩)
    · rw [hmissing] at hwaiting
      cases hwaiting
    · exact hfull hroom
  have hrun := (scansTo_of_ordinary used maxc hordinary).checkMemStateInto 1
  rw [Machine.checkPages, if_pos hrange, checkPage_passed hgoes, scanned_succ_of_waiting hwaiting] at hrun
  refine hfull (h (n + 1) (m.pageValue (nthPage address n), used + waitingCount m address n) ?_)
  rw [hrun]
  exact List.mem_append_right _ (List.mem_singleton.mpr rfl)

/-- With room for the waiting pages, the rounds from `n` on store inside the buffer. -/
theorem RoomForWaiting.checkPages (h : RoomForWaiting m address size maxc used) {n : ℕ}
    (hordinary : ∀ i < n, InRange address size i ∧ m.pageClass (nthPage address i) ≠ .missing ∧ ¬ OtherKind m address i)
    (hbefore : ∀ e ∈ (scanned m address used n).stores, e.2 < maxc) (fuel : ℕ) :
    ∀ e ∈ (m.checkPages maxc (add64 address size) fuel (nthPage address n) (scanned m address used n)).1.stores,
      e.2 < maxc := by
  induction fuel generalizing n with
  | zero => exact hbefore
  | succ fuel ih =>
    by_cases hrange : InRange address size n
    · have hlt := hrange
      unfold InRange at hlt
      rw [Machine.checkPages, if_pos hlt]
      by_cases hmissing : m.pageClass (nthPage address n) = .missing
      · rw [checkPage_missing hmissing]
        exact hbefore
      · by_cases hother : OtherKind m address n
        · rw [checkPage_other hother (h n hordinary hrange hother.1)]
          exact hbefore
        · have hordinary' : ∀ i < n + 1, InRange address size i ∧
              m.pageClass (nthPage address i) ≠ .missing ∧ ¬ OtherKind m address i := by
            intro i hi
            rcases Nat.lt_succ_iff_lt_or_eq.mp hi with hlt | rfl
            · exact hordinary i hlt
            · exact ⟨hrange, hmissing, hother⟩
          rw [checkPage_passed (scansTo_of_ordinary used maxc hordinary' n (Nat.lt_succ_self n)).2]
          change ∀ e ∈ (m.checkPages maxc (add64 address size) fuel (nthPage address (n + 1))
            (scanned m address used (n + 1))).1.stores, e.2 < maxc
          refine ih hordinary' fun e he => ?_
          cases hwaiting : (m.pageClass (nthPage address n)).waiting with
          | false =>
            rw [scanned_succ_of_not hwaiting] at he
            exact hbefore e he
          | true =>
            rw [scanned_succ_of_waiting hwaiting, List.mem_append, List.mem_singleton] at he
            rcases he with hold | rfl
            · exact hbefore e hold
            · exact h n hordinary hrange hwaiting
    · have hend := hrange
      unfold InRange at hend
      rw [Machine.checkPages, if_neg hend]
      exact hbefore

/-- With room for the waiting pages, every store goes inside the buffer. -/
theorem RoomForWaiting.storesInside (h : RoomForWaiting m address size maxc used) :
    StoresInside m address size maxc used := by
  intro fuel
  have hnone (i : ℕ) (hi : i < 0) : InRange address size i ∧
      m.pageClass (nthPage address i) ≠ .missing ∧ ¬ OtherKind m address i := absurd hi (Nat.not_lt_zero i)
  have hrun := (scansTo_of_ordinary used maxc hnone).checkMemStateInto fuel
  rw [Nat.zero_add] at hrun
  rw [hrun]
  exact h.checkPages hnone (fun e he => absurd he List.not_mem_nil) fuel

/-- When `check_mem_state` stays inside its buffer, for every page-table state, address, size,
capacity and number of entries already used: exactly when each waiting page that is reached before
the check has to stop finds a free entry. -/
theorem storesInside_iff (m : Machine) (address size maxc used : ℕ) :
    StoresInside m address size maxc used ↔ RoomForWaiting m address size maxc used := by
  constructor
  · exact StoresInside.room
  · exact RoomForWaiting.storesInside

end Loop

/-- A machine on which every page of the active space is reserved on demand. -/
def demandMachine : Machine where
  framePool := []
  memory := fun table _ =>
    if table = 0x1000 then 0x2007 else if table = 0x2000 then 0x3007 else if table = 0x3000 then 0x4007 else 0xA
  activePage := 0x1000
  memMirrorPresent := true
  tmpHeap := 0
  lockLog := []

/-- Every page of it waits. -/
theorem pageClass_demandMachine (addr : ℕ) : demandMachine.pageClass addr = .onDemand := by
  simp [demandMachine, Machine.pageClass, Machine.getPage, Machine.descend, Machine.load, present, bit, align]

/-- No page of it is of another kind than the first. -/
theorem not_otherKind_demandMachine (address n : ℕ) : ¬ OtherKind demandMachine address n := by
  rintro ⟨_, first, hfirst, hne⟩
  obtain ⟨i, _, hi⟩ := List.mem_map.mp (List.mem_of_find?_eq_some hfirst)
  rw [pageClass_demandMachine] at hi hne
  exact hne hi.symm

/-- All its pages are counted. -/
theorem waitingCount_demandMachine (address n : ℕ) : waitingCount demandMachine address n = n := by
  induction n with
  | zero => rfl
  | succ n ih =>
    have hwaiting : (demandMachine.pageClass (nthPage address n)).waiting = true := by
      rw [pageClass_demandMachine]
      rfl
    rw [(waiting_succ_of_waiting hwaiting).2, ih]

/-- A range of `0x513` pages reserved on demand, validated with the buffer of `validate_address`:
the last page is stored past its end. -/
theorem validateAddress_overflows :
    ¬ StoresInside demandMachine 0x400000 0x513000 maxCheckedElements 0 := by
  intro hinside
  have hrange (i : ℕ) (hi : i ≤ 0x512) : InRange 0x400000 0x513000 i := by
    unfold InRange
    rw [nthPage_eq (by decide), add64_of_lt (by decide)]
    omega
  have hroom := hinside.room 0x512 (fun i hi => ⟨hrange i (Nat.le_of_lt hi), by rw [pageClass_demandMachine]; decide,
    not_otherKind_demandMachine _ i⟩) (hrange 0x512 (Nat.le_refl _)) (by rw [pageClass_demandMachine]; rfl)
  rw [waitingCount_demandMachine, maxCheckedElements] at hroom
  omega

end Cthulhu
