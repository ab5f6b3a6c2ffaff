import Mathlib.Data.List.Perm.Subperm
import Mathlib.Data.List.Sort
import Cthulhu.Memory.PageWalk
import Cthulhu.Syscalls.CheckState

/-!
# What `check_mem_state` reports of a range

The report a caller may expect: the range is in order when every page with a byte of it is
present; otherwise the state of its first page that is not present, with the entries of the
leading run of pages in that state, cut at the capacity of the buffer.

The source steps from an unaligned address, so that it can miss the last page; it passes over
pages that are valid without being swapped out or reserved on demand; a missing page replaces the
state found before it; and after its loop it answers that the range is in order whatever it has
found. The main theorem says on which page tables, ranges and buffers the report is right
nevertheless.
-/

namespace Cthulhu

/-- The number of pages that contain a byte of the range. -/
def spannedPages (address size : ℕ) : ℕ :=
  if size = 0 then 0 else (address + size - 1) / 0x1000 - address / 0x1000 + 1

/-- The pages counted are those that contain a byte of the range. -/
theorem lt_spannedPages_iff {address size j : ℕ} : j < spannedPages address size ↔
    ∃ b, address ≤ b ∧ b < address + size ∧ b / 0x1000 = address / 0x1000 + j := by
  unfold spannedPages
  split
  · constructor
    · intro hj
      omega
    · rintro ⟨b, hlow, hhigh, _⟩
      omega
  · constructor
    · intro hj
      -- the first byte of the range on that page
      refine ⟨max address (0x1000 * (address / 0x1000 + j)), by omega, by omega, by omega⟩
    · rintro ⟨b, hlow, hhigh, hpage⟩
      omega

/-- The state of a page by its class. -/
def PageClass.state : PageClass → MemState
  | .present => .okay
  | .missing | .idle => .notpresent
  | .swapped => .swapped
  | .onDemand => .allocondem

section Report

variable (m : Machine) (address size maxc used : ℕ)

/-- The class of the page `j` pages after the one the range starts on. -/
def rangeClass (j : ℕ) : PageClass := m.pageClass (address + 0x1000 * j)

/-- Every page of the range is present. -/
def AllPresent : Prop := ∀ j < spannedPages address size, rangeClass m address j = .present

/-- Page `j` is the first page of the range that is not present. -/
def FirstAbsent (j : ℕ) : Prop :=
  j < spannedPages address size ∧ rangeClass m address j ≠ .present ∧ ∀ i < j, rangeClass m address i = .present

/-- Page `j` belongs to the leading run: it waits, and each page before it is in the same state or
present. In the strict reading a present page within the run ends it. -/
def Leading (strict : Bool) (j : ℕ) : Prop :=
  (rangeClass m address j).waiting = true ∧ ∀ l < j, rangeClass m address l = rangeClass m address j ∨
    rangeClass m address l = .present ∧ (strict = true → ∀ i < l, rangeClass m address i = .present)

instance (strict : Bool) (j : ℕ) : Decidable (Leading m address strict j) :=
  inferInstanceAs (Decidable (_ ∧ _))

/-- The pages of the leading run. -/
def leadingPages (strict : Bool) : List ℕ := (List.range (spannedPages address size)).filter (Leading m address strict)

/-- `check_mem_state` returns `result` and leaves the state `s`. -/
def ChecksTo (s : CheckState) (result : MemState) : Prop :=
  ∃ fuel, m.checkMemStateInto fuel address size maxc used = (s, some result)

/-- The state and the result report the range. -/
def Reports (strict : Bool) (s : CheckState) (result : MemState) : Prop :=
  (result = .okay ↔ AllPresent m address size) ∧
    ∀ j, FirstAbsent m address size j → result = (rangeClass m address j).state ∧
      ((rangeClass m address j).waiting = true → s.stores =
        (((leadingPages m address size strict).map fun i => m.pageValue (address + 0x1000 * i)).take
          (maxc - used)).zipIdx used)

/-- `check_mem_state` returns and reports the range. -/
def Classified (strict : Bool) : Prop :=
  ∃ s result, ChecksTo m address size maxc used s result ∧ Reports m address size maxc used strict s result

/-- Every page is present, and the loop's counter passes the end of the range without wrapping. -/
def PresentAndEnds : Prop := AllPresent m address size ∧ address + 0x1000 * ((size + 0xFFF) / 0x1000) < 2 ^ 64

/-- The first page that is not present is missing or idle, and the first round that returns tests
a missing page. -/
def MissingFound : Prop :=
  (∃ j, FirstAbsent m address size j ∧ (rangeClass m address j).state = .notpresent) ∧
    ∃ k, ScansTo m address used maxc size k ∧ InRange address size k ∧ m.pageClass (nthPage address k) = .missing

/-- The first round that returns tests a waiting page of another kind, and every waiting page
before it belongs to the leading run. -/
def RunCutByOther (strict : Bool) : Prop :=
  ∃ k, ScansTo m address used maxc size k ∧ InRange address size k ∧ OtherKind m address k ∧
    used + waitingCount m address k < maxc ∧
    ∀ i ∈ waitingRounds m address k, i < spannedPages address size ∧ Leading m address strict i

end Report

section Pages

variable {m : Machine} {address size : ℕ}

/-- The class of a page by its entry. -/
def entryClass (entry : ℕ) : PageClass :=
  if present entry then .present
  else if !bit entry 1 then .missing
  else if bit entry 2 then .swapped
  else if bit entry 3 then .onDemand
  else .idle

/-- What `check_mem_state` finds is decided by the entry. -/
theorem Machine.pageClass_eq (m : Machine) (va : ℕ) : m.pageClass va = entryClass (m.pageEntry va m.activePage) := by
  unfold Machine.pageClass Machine.pageEntry
  cases (m.getPage va m.activePage false false).1 with
  | none => exact (by decide : PageClass.missing = entryClass 0)
  | some p => rfl

/-- Every page of the range is present when every byte of it is on a present page. -/
theorem allPresent_iff : AllPresent m address size ↔
    ∀ b, address ≤ b → b < address + size → m.pageClass b = .present := by
  have hclass (b j : ℕ) (h : b / 0x1000 = address / 0x1000 + j) : m.pageClass b = rangeClass m address j := by
    unfold rangeClass Machine.pageClass
    rw [Machine.getPage_congr (show b / 0x1000 = (address + 0x1000 * j) / 0x1000 by omega)]
  constructor
  · intro hall b hlow hhigh
    obtain ⟨j, hj⟩ : ∃ j, b / 0x1000 = address / 0x1000 + j := ⟨b / 0x1000 - address / 0x1000, by omega⟩
    rw [hclass b j hj]
    exact hall j (lt_spannedPages_iff.mpr ⟨b, hlow, hhigh, hj⟩)
  · intro hbytes j hj
    obtain ⟨b, hlow, hhigh, hpage⟩ := lt_spannedPages_iff.mp hj
    rw [← hclass b j hpage]
    exact hbytes b hlow hhigh

end Pages

section Rounds

variable {m : Machine} {address size maxc used : ℕ}

/-- The rounds before the end of the range test its pages. -/
theorem round_of_lt (hwrap : address + size < 2 ^ 64) {i : ℕ} (hi : i < (size + 0xFFF) / 0x1000) :
    nthPage address i = address + 0x1000 * i ∧ InRange address size i ∧ i < spannedPages address size := by
  have hlt : address + 0x1000 * i < address + size := by omega
  have htested : nthPage address i = address + 0x1000 * i := by
    rw [nthPage_eq (by omega), Nat.mod_eq_of_lt (by omega)]
  refine ⟨htested, ?_, lt_spannedPages_iff.mpr ⟨address + 0x1000 * i, by omega, hlt, by omega⟩⟩
  unfold InRange
  rwa [htested, add64_of_lt hwrap]

/-- A counter that does not wrap leaves the range after its last round. -/
theorem not_inRange_end (hend : address + 0x1000 * ((size + 0xFFF) / 0x1000) < 2 ^ 64) :
    ¬ InRange address size ((size + 0xFFF) / 0x1000) := by
  unfold InRange
  rw [nthPage_eq (by omega), Nat.mod_eq_of_lt hend, add64_of_lt (by omega)]
  omega

/-- A counter that wraps never leaves the range. -/
theorem inRange_of_wrap (hwrap : address + size < 2 ^ 64)
    (hend : 2 ^ 64 ≤ address + 0x1000 * ((size + 0xFFF) / 0x1000)) (n : ℕ) : InRange address size n := by
  unfold InRange
  rw [nthPage_eq (by omega), add64_of_lt hwrap]
  omega

/-- A counter that wraps has tested every page of the range. -/
theorem spannedPages_le_of_wrap (hwrap : address + size < 2 ^ 64)
    (hend : 2 ^ 64 ≤ address + 0x1000 * ((size + 0xFFF) / 0x1000)) :
    spannedPages address size ≤ (size + 0xFFF) / 0x1000 := by
  unfold spannedPages
  split
  · exact Nat.zero_le _
  · omega

/-- A round made before another one tests the page of its number, if the range has that page. -/
theorem round_of_scansTo (hwrap : address + size < 2 ^ 64) {k i : ℕ} (hrange : ∀ j < k, InRange address size j)
    (hi : i < k) (hpage : i < spannedPages address size) : nthPage address i = address + 0x1000 * i := by
  rcases Nat.lt_or_ge (address + 0x1000 * ((size + 0xFFF) / 0x1000)) (2 ^ 64) with hend | hend
  · have hle : k ≤ (size + 0xFFF) / 0x1000 := Nat.le_of_not_lt fun hlt => not_inRange_end hend (hrange _ hlt)
    exact (round_of_lt hwrap (Nat.lt_of_lt_of_le hi hle)).1
  · exact (round_of_lt hwrap (Nat.lt_of_lt_of_le hpage (spannedPages_le_of_wrap hwrap hend))).1

end Rounds

section Outcomes

variable {m : Machine} {address size maxc used : ℕ}

/-- More fuel does not change what was returned. -/
theorem checkPages_more {limit fuel addr : ℕ} {s t : CheckState} {result : MemState}
    (h : m.checkPages maxc limit fuel addr s = (t, some result)) (extra : ℕ) :
    m.checkPages maxc limit (fuel + extra) addr s = (t, some result) := by
  induction fuel generalizing addr s with
  | zero => cases h
  | succ fuel ih =>
    rw [Nat.add_right_comm, Machine.checkPages]
    rw [Machine.checkPages] at h
    by_cases hlimit : addr < limit
    · rw [if_pos hlimit] at h ⊢
      rcases hround : m.checkPage maxc addr s with ⟨u, _ | value⟩
      · rw [hround] at h
        exact ih h
      · rw [hround] at h
        exact h
    · rw [if_neg hlimit] at h ⊢
      exact h

/-- What is returned does not depend on the fuel. -/
theorem ChecksTo.unique {s t : CheckState} {result result' : MemState}
    (h : ChecksTo m address size maxc used s result) (h' : ChecksTo m address size maxc used t result') :
    s = t ∧ result = result' := by
  obtain ⟨fuel, hrun⟩ := h
  obtain ⟨fuel', hrun'⟩ := h'
  have hmore := checkPages_more hrun fuel'
  rw [Nat.add_comm, checkPages_more hrun' fuel, Prod.mk.injEq, Option.some.injEq] at hmore
  exact ⟨hmore.1.symm, hmore.2.symm⟩

/-- The check returns at a missing page. -/
theorem ScansTo.checksTo_missing {k : ℕ} (h : ScansTo m address used maxc size k) (hrange : InRange address size k)
    (hmissing : m.pageClass (nthPage address k) = .missing) :
    ChecksTo m address size maxc used (scanned m address used k) .notpresent := by
  unfold InRange at hrange
  refine ⟨k + 1, ?_⟩
  rw [h.checkMemStateInto, Machine.checkPages, if_pos hrange, checkPage_missing hmissing]

/-- The check returns at a waiting page of another kind. -/
theorem ScansTo.checksTo_other {k : ℕ} (h : ScansTo m address used maxc size k) (hrange : InRange address size k)
    (hother : OtherKind m address k) (hroom : used + waitingCount m address k < maxc) :
    ChecksTo m address size maxc used (scanned m address used k) (waitingState (firstWaiting m address k)) := by
  unfold InRange at hrange
  refine ⟨k + 1, ?_⟩
  rw [h.checkMemStateInto, Machine.checkPages, if_pos hrange, checkPage_other hother hroom]

/-- The check returns after the end of the range. -/
theorem ScansTo.checksTo_end {k : ℕ} (h : ScansTo m address used maxc size k) (hend : ¬ InRange address size k) :
    ChecksTo m address size maxc used (scanned m address used k) .okay := by
  unfold InRange at hend
  refine ⟨k + 1, ?_⟩
  rw [h.checkMemStateInto, Machine.checkPages, if_neg hend]

/-- A check whose rounds all go on does not return. -/
theorem not_checksTo_of_scans (h : ∀ n, ScansTo m address used maxc size n) (s : CheckState) (result : MemState) :
    ¬ ChecksTo m address size maxc used s result := by
  rintro ⟨fuel, hrun⟩
  have hscanned := (h fuel).checkMemStateInto 0
  rw [Nat.add_zero, hrun] at hscanned
  cases hscanned

/-- The check stops at a missing page, stops at a page of another kind, comes to the end of the
range, or goes on forever. -/
theorem scan_cases (m : Machine) (address size maxc used : ℕ) :
    (∃ k, ScansTo m address used maxc size k ∧ InRange address size k ∧
        m.pageClass (nthPage address k) = .missing) ∨
      (∃ k, ScansTo m address used maxc size k ∧ InRange address size k ∧ OtherKind m address k ∧
        used + waitingCount m address k < maxc) ∨
      (∃ k, ScansTo m address used maxc size k ∧ ¬ InRange address size k) ∨
      ∀ n, ScansTo m address used maxc size n := by
  classical
  by_cases hstops : ∃ i, ¬ (InRange address size i ∧ ¬ StopsAt m address used maxc i)
  · have hscan : ScansTo m address used maxc size (Nat.find hstops) :=
      fun j hj => not_not.mp (Nat.find_min hstops hj)
    by_cases hrange : InRange address size (Nat.find hstops)
    · have hstop : StopsAt m address used maxc (Nat.find hstops) :=
        not_not.mp fun hgoes => Nat.find_spec hstops ⟨hrange, hgoes⟩
      rcases hstop with hmissing | ⟨hother, hroom⟩
      · exact Or.inl ⟨_, hscan, hrange, hmissing⟩
      · exact Or.inr (Or.inl ⟨_, hscan, hrange, hother, hroom⟩)
    · exact Or.inr (Or.inr (Or.inl ⟨_, hscan, hrange⟩))
  · exact Or.inr (Or.inr (Or.inr fun n i _ => not_not.mp fun hi => hstops ⟨i, hi⟩))

/-- A range whose pages are not all present has a first page that is not present. -/
theorem exists_firstAbsent (h : ¬ AllPresent m address size) : ∃ j, FirstAbsent m address size j := by
  classical
  unfold AllPresent at h
  push Not at h
  obtain ⟨hlt, habsent⟩ := Nat.find_spec h
  refine ⟨Nat.find h, hlt, habsent, fun i hi => ?_⟩
  by_contra hne
  exact Nat.find_min h hi ⟨Nat.lt_trans hi hlt, hne⟩

/-- Only one page is the first that is not present. -/
theorem FirstAbsent.unique {i j : ℕ} (hi : FirstAbsent m address size i) (hj : FirstAbsent m address size j) : i = j := by
  rcases Nat.lt_trichotomy i j with hlt | heq | hgt
  · exact absurd (hj.2.2 i hlt) hi.2.1
  · exact heq
  · exact absurd (hi.2.2 j hgt) hj.2.1

/-- The first waiting page was tested in some round, after pages that do not wait. -/
theorem exists_firstWaiting {n : ℕ} {c : PageClass} (h : firstWaiting m address n = some c) :
    ∃ i < n, m.pageClass (nthPage address i) = c ∧ ∀ j < i, (m.pageClass (nthPage address j)).waiting = false := by
  induction n with
  | zero => cases h
  | succ n ih =>
    cases hbefore : firstWaiting m address n with
    | some d =>
      cases hwaiting : (m.pageClass (nthPage address n)).waiting with
      | false =>
        rw [(waiting_succ_of_not hwaiting).1] at h
        obtain ⟨i, hi, hclass, hnone⟩ := ih h
        exact ⟨i, Nat.lt_succ_of_lt hi, hclass, hnone⟩
      | true =>
        rw [(waiting_succ_of_waiting hwaiting).1, hbefore] at h
        obtain ⟨i, hi, hclass, hnone⟩ := ih (hbefore.trans h)
        exact ⟨i, Nat.lt_succ_of_lt hi, hclass, hnone⟩
    | none =>
      have hnone (j : ℕ) (hj : j < n) : (m.pageClass (nthPage address j)).waiting = false := by
        have hall := List.find?_eq_none.mp hbefore (m.pageClass (nthPage address j))
          (List.mem_map.mpr ⟨j, List.mem_range.mpr hj, rfl⟩)
        exact Bool.eq_false_iff.mpr hall
      cases hwaiting : (m.pageClass (nthPage address n)).waiting with
      | false =>
        rw [(waiting_succ_of_not hwaiting).1, hbefore] at h
        cases h
      | true =>
        rw [(waiting_succ_of_waiting hwaiting).1, hbefore, Option.none_or, Option.some.injEq] at h
        exact ⟨n, Nat.lt_succ_self n, h, hnone⟩

end Outcomes

/-- A waiting page leaves its own state. -/
theorem waitingState_eq_state {c : PageClass} (hc : c.waiting = true) : waitingState (some c) = c.state := by
  revert hc
  cases c <;> decide

/-- The state of a waiting page is neither that of a range in order nor that of a missing page. -/
theorem PageClass.state_of_waiting {c : PageClass} (hc : c.waiting = true) :
    c.state ≠ .okay ∧ c.state ≠ .notpresent := by
  revert hc
  cases c <;> decide

/-- A page in the state of a waiting page is of its class. -/
theorem PageClass.eq_of_state {c d : PageClass} (hd : d.waiting = true) (h : c.state = d.state) : c = d := by
  revert hd h
  cases c <;> cases d <;> decide

section LeadingRun

variable {m : Machine} {address size maxc used k j : ℕ} {strict : Bool}

/-- The rounds that test a waiting page. -/
theorem mem_waitingRounds {i : ℕ} : i ∈ waitingRounds m address k ↔
    i < k ∧ (m.pageClass (nthPage address i)).waiting = true := by
  rw [waitingRounds, List.mem_filter, List.mem_range]

/-- The pages of the leading run. -/
theorem mem_leadingPages {i : ℕ} : i ∈ leadingPages m address size strict ↔
    i < spannedPages address size ∧ Leading m address strict i := by
  rw [leadingPages, List.mem_filter, List.mem_range, decide_eq_true_eq]

/-- Every page of the leading run is in the state of the first page that is not present. -/
theorem Leading.class_eq {i : ℕ} (h : Leading m address strict i) (hfirst : FirstAbsent m address size j) :
    rangeClass m address i = rangeClass m address j := by
  obtain ⟨hwaiting, hbefore⟩ := h
  rcases Nat.lt_trichotomy i j with hlt | rfl | hgt
  · rw [hfirst.2.2 i hlt] at hwaiting
    cases hwaiting
  · rfl
  · rcases hbefore j hgt with hsame | ⟨hpresent, _⟩
    · exact hsame.symm
    · exact absurd hpresent hfirst.2.1

/-- The leading run ends before a page of another kind. -/
theorem leadingPages_subset (hwrap : address + size < 2 ^ 64) (hscan : ScansTo m address used maxc size k)
    (hrange : InRange address size k) (hother : OtherKind m address k) (hfirst : FirstAbsent m address size j)
    (hkind : firstWaiting m address k = some (rangeClass m address j)) :
    leadingPages m address size strict ⊆ waitingRounds m address k := by
  intro i hi
  obtain ⟨hpage, hlead⟩ := mem_leadingPages.mp hi
  have hrounds : ∀ l < k + 1, InRange address size l := fun l hl =>
    (Nat.lt_succ_iff_lt_or_eq.mp hl).elim (fun hlt => (hscan l hlt).1) fun heq => heq ▸ hrange
  have hlt : i < k := by
    by_contra hge
    -- then page `k` would belong to the run, or end it
    have hround := round_of_scansTo hwrap hrounds (Nat.lt_succ_self k) (by omega)
    obtain ⟨hwaiting, first, hsome, hne⟩ := hother
    rw [hkind, Option.some.injEq] at hsome
    rw [← hsome, ← hlead.class_eq hfirst, hround] at hne
    rw [hround] at hwaiting
    rcases Nat.lt_or_eq_of_le (Nat.le_of_not_lt hge) with hafter | rfl
    · rcases hlead.2 k hafter with hsame | ⟨hpresent, _⟩
      · exact hne hsame.symm
      · unfold rangeClass at hpresent
        rw [hpresent] at hwaiting
        cases hwaiting
    · exact hne rfl
  refine mem_waitingRounds.mpr ⟨hlt, ?_⟩
  rw [round_of_scansTo hwrap hrounds (Nat.lt_succ_of_lt hlt) hpage]
  exact hlead.1

/-- A report of a waiting state stores the leading run and no other page. -/
theorem Reports.runCutByOther (hwrap : address + size < 2 ^ 64) (hscan : ScansTo m address used maxc size k)
    (hrange : InRange address size k) (hother : OtherKind m address k) (hroom : used + waitingCount m address k < maxc)
    (h : Reports m address size maxc used strict (scanned m address used k)
      (waitingState (firstWaiting m address k))) :
    RunCutByOther m address size maxc used strict := by
  obtain ⟨hokay, hfirstAbsent⟩ := h
  obtain ⟨first, hfirst, _⟩ := hother.2
  have hwaiting := waiting_of_firstWaiting hfirst
  rw [hfirst, waitingState_eq_state hwaiting] at hokay hfirstAbsent
  have habsent : ¬ AllPresent m address size := fun hall =>
    (PageClass.state_of_waiting hwaiting).1 (hokay.mpr hall)
  obtain ⟨j, hj⟩ := exists_firstAbsent habsent
  obtain ⟨hstate, hstores⟩ := hfirstAbsent j hj
  have hclass : rangeClass m address j = first := PageClass.eq_of_state hwaiting hstate.symm
  have hsubset : leadingPages m address size strict ⊆ waitingRounds m address k :=
    leadingPages_subset hwrap hscan hrange hother hj (hclass ▸ hfirst)
  -- the buffer has room, so that the stored entries are not cut and the lengths agree
  have hlength := congrArg List.length (hstores (hclass ▸ hwaiting))
  simp only [scanned, List.length_zipIdx, List.length_map, List.length_take, length_waitingRounds] at hlength
  have hle : (waitingRounds m address k).length ≤ (leadingPages m address size strict).length := by
    rw [length_waitingRounds]
    omega
  have hperm := ((List.nodup_range.filter _).subperm hsubset).perm_of_length_le hle
  exact ⟨k, hscan, hrange, hother, hroom, fun i hi => mem_leadingPages.mp (hperm.mem_iff.mpr hi)⟩

/-- Where the waiting pages before the page of another kind are the leading run, the check stores
exactly that run. -/
theorem waitingRounds_eq_leadingPages (hsubset : leadingPages m address size strict ⊆ waitingRounds m address k)
    (hrun : ∀ i ∈ waitingRounds m address k, i < spannedPages address size ∧ Leading m address strict i) :
    waitingRounds m address k = leadingPages m address size strict := by
  have hperm : (waitingRounds m address k).Perm (leadingPages m address size strict) :=
    (List.perm_ext_iff_of_nodup (List.nodup_range.filter _) (List.nodup_range.filter _)).mpr fun i =>
      ⟨fun hi => mem_leadingPages.mpr (hrun i hi), fun hi => hsubset hi⟩
  exact List.Perm.eq_of_pairwise (fun a b _ _ hab hba => absurd hab (Nat.lt_asymm hba))
    (List.pairwise_lt_range.filter _) (List.pairwise_lt_range.filter _) hperm

/-- A check that is stopped by a page of another kind reports the range when the waiting pages
before it are the leading run. -/
theorem RunCutByOther.classified (hwrap : address + size < 2 ^ 64)
    (h : RunCutByOther m address size maxc used strict) : Classified m address size maxc used strict := by
  obtain ⟨k, hscan, hrange, hother, hroom, hrun⟩ := h
  obtain ⟨first, hfirst, _⟩ := hother.2
  have hwaiting := waiting_of_firstWaiting hfirst
  obtain ⟨i, hi, hclass, hnone⟩ := exists_firstWaiting hfirst
  obtain ⟨hpage, _, hbefore⟩ := hrun i (mem_waitingRounds.mpr ⟨hi, hclass ▸ hwaiting⟩)
  have hround (l : ℕ) (hl : l < k) (hlt : l < spannedPages address size) : nthPage address l = address + 0x1000 * l :=
    round_of_scansTo hwrap (fun j hj => (hscan j hj).1) hl hlt
  rw [hround i hi hpage] at hclass
  have habsent : FirstAbsent m address size i := by
    refine ⟨hpage, ?_, fun l hl => ?_⟩
    · intro hpresent
      rw [← hclass, ← rangeClass, hpresent] at hwaiting
      cases hwaiting
    · rcases hbefore l hl with hsame | ⟨hpresent, _⟩
      · have hidle := hnone l hl
        rw [hround l (by omega) (by omega), ← rangeClass, hsame, rangeClass, hclass, hwaiting] at hidle
        cases hidle
      · exact hpresent
  have hlist := waitingRounds_eq_leadingPages (leadingPages_subset hwrap hscan hrange hother habsent
    (hfirst.trans (congrArg some hclass.symm))) hrun
  refine ⟨_, _, hscan.checksTo_other hrange hother hroom, ?_, fun j hj => ?_⟩
  · constructor
    · intro hokay
      rw [hfirst, waitingState_eq_state hwaiting] at hokay
      exact absurd hokay (PageClass.state_of_waiting hwaiting).1
    · intro hall
      exact absurd (hall i hpage) habsent.2.1
  · obtain rfl := hj.unique habsent
    refine ⟨?_, fun _ => ?_⟩
    · rw [hfirst, rangeClass, hclass, waitingState_eq_state hwaiting]
    · have hvalues : (waitingRounds m address k).map (fun l => m.pageValue (nthPage address l)) =
          (leadingPages m address size strict).map fun l => m.pageValue (address + 0x1000 * l) := by
        rw [← hlist]
        refine List.map_congr_left fun l hl => ?_
        rw [hround l (mem_waitingRounds.mp hl).1 (hrun l hl).1]
      have hcount : (leadingPages m address size strict).length = waitingCount m address k := by
        rw [← hlist, length_waitingRounds]
      rw [scanned, hvalues, List.take_of_length_le]
      rw [List.length_map, hcount]
      omega

end LeadingRun

/-- When `check_mem_state` reports a range that does not wrap, for every page-table state, buffer
and both readings of the leading run: exactly when every page is present and the counter does not
wrap at the end, when a missing page is found and the first page that is not present is no waiting
one, or when a waiting page of another kind stops the check right after the leading run. -/
theorem classified_iff (m : Machine) (address size maxc used : ℕ) (strict : Bool) (hwrap : address + size < 2 ^ 64) :
    Classified m address size maxc used strict ↔
      PresentAndEnds m address size ∨ MissingFound m address size maxc used ∨
        RunCutByOther m address size maxc used strict := by
  constructor
  · rintro ⟨s, result, hchecks, hreports⟩
    rcases scan_cases m address size maxc used with ⟨k, hscan, hrange, hmissing⟩ | ⟨k, hscan, hrange, hother, hroom⟩ |
      ⟨k, hscan, hend⟩ | hscans
    · obtain ⟨rfl, rfl⟩ := hchecks.unique (hscan.checksTo_missing hrange hmissing)
      obtain ⟨j, hj⟩ := exists_firstAbsent fun hall => by cases hreports.1.mpr hall
      exact Or.inr (Or.inl ⟨⟨j, hj, (hreports.2 j hj).1.symm⟩, k, hscan, hrange, hmissing⟩)
    · obtain ⟨rfl, rfl⟩ := hchecks.unique (hscan.checksTo_other hrange hother hroom)
      exact Or.inr (Or.inr (hreports.runCutByOther hwrap hscan hrange hother hroom))
    · obtain ⟨rfl, rfl⟩ := hchecks.unique (hscan.checksTo_end hend)
      refine Or.inl ⟨hreports.1.mp rfl, ?_⟩
      by_contra hge
      exact hend (inRange_of_wrap hwrap (Nat.le_of_not_lt hge) k)
    · exact absurd hchecks (not_checksTo_of_scans hscans s result)
  · rintro (⟨hall, hend⟩ | ⟨⟨j, hj, hstate⟩, k, hscan, hrange, hmissing⟩ | hrun)
    · have hscan : ScansTo m address used maxc size ((size + 0xFFF) / 0x1000) := by
        intro i hi
        obtain ⟨hround, hrange, hpage⟩ := round_of_lt hwrap hi
        have hpresent := hall i hpage
        rw [rangeClass, ← hround] at hpresent
        refine ⟨hrange, ?_⟩
        rintro (hmissing | ⟨⟨hwaiting, _⟩, _⟩)
        · rw [hpresent] at hmissing
          cases hmissing
        · rw [hpresent] at hwaiting
          cases hwaiting
      refine ⟨_, _, hscan.checksTo_end (not_inRange_end hend), ⟨fun _ => hall, fun _ => rfl⟩, fun j hj => ?_⟩
      exact absurd (hall j hj.1) hj.2.1
    · refine ⟨_, _, hscan.checksTo_missing hrange hmissing, ?_, fun i hi => ?_⟩
      · constructor
        · intro hokay
          cases hokay
        · intro hall
          exact absurd (hall j hj.1) hj.2.1
      · obtain rfl := hi.unique hj
        exact ⟨hstate.symm, fun hwaiting => absurd hstate (PageClass.state_of_waiting hwaiting).2⟩
    · exact hrun.classified hwrap

/-- Eight bytes that no table maps are reported as missing. -/
theorem classified_iff_unmapped : (0x400000 + 8 < 2 ^ 64) ∧
    Classified unmappedMachine 0x400000 8 maxCheckedElements 0 false := by
  refine ⟨by decide, (classified_iff _ _ _ _ _ _ (by decide)).mpr (Or.inr (Or.inl ⟨⟨0, ⟨by decide, ?_, ?_⟩, rfl⟩, 0, ?_⟩))⟩
  · decide
  · intro i hi
    omega
  · exact ⟨fun i hi => absurd hi (Nat.not_lt_zero i), by unfold InRange; decide, rfl⟩

/-- Eight bytes on one page reserved on demand: the page is stored, and the answer is that the
range is in order. -/
theorem checkMemState_misreports :
    ChecksTo demandMachine 0x400000 8 maxCheckedElements 0 (scanned demandMachine 0x400000 0 1) .okay ∧
      ∀ strict, ¬ Classified demandMachine 0x400000 8 maxCheckedElements 0 strict := by
  have hscan : ScansTo demandMachine 0x400000 0 maxCheckedElements 8 1 := by
    refine scansTo_of_ordinary 0 maxCheckedElements fun i hi => ?_
    obtain rfl : i = 0 := by omega
    exact ⟨by unfold InRange; decide, by rw [pageClass_demandMachine]; decide, not_otherKind_demandMachine _ 0⟩
  have hchecks := hscan.checksTo_end (by unfold InRange; decide)
  refine ⟨hchecks, fun strict => ?_⟩
  rintro ⟨s, result, hreturns, hreports⟩
  obtain ⟨rfl, rfl⟩ := hreturns.unique hchecks
  have hpresent := hreports.1.mp rfl 0 (by decide)
  rw [rangeClass, pageClass_demandMachine] at hpresent
  cases hpresent

end Cthulhu
