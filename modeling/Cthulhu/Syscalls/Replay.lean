import Cthulhu.Syscalls.Continuation
import Mathlib.Data.List.TakeWhile

/-!
# Replaying continuations

`do_sys_handler` takes the arguments of a replay from the registers saved for the thread and
never from the continuation, `sys_handler` records `r8`, `r9` and `r10` where `rdx`, `r8` and
`r9` are passed, and a thread that goes on at once, or for which there is no frame, is not
replayed at all. Replays are right on the runs whose user code leaves in its registers what the
call still asks for. On these an allocation that runs out of frames goes on where it stopped, and
ends with its whole area reserved.
-/

namespace Cthulhu

open Lib

section Rest

/-- The rest of a page range is the range from where it starts. -/
theorem pageRange_drop (first limit k : ℕ) : (pageRange first limit).drop k = pageRange (first + 0x1000 * k) limit := by
  have hlength (first : ℕ) : (pageRange first limit).length = (limit - first + 0xFFF) / 0x1000 := by
    simp [pageRange]
  apply List.ext_getElem
  · rw [List.length_drop, hlength, hlength]
    omega
  · intro i hi hi'
    simp only [pageRange, List.getElem_drop, List.getElem_map, List.getElem_range]
    omega

/-- The request after some rounds, where nothing wraps. -/
theorem AllocInfo.next_iterate (ainfo : AllocInfo) (k : ℕ) (hstart : ainfo.start + 0x1000 * k < 2 ^ 64)
    (hamount : 0x1000 * k ≤ ainfo.amount) :
    (AllocInfo.next^[k] ainfo).start = ainfo.start + 0x1000 * k ∧
      (AllocInfo.next^[k] ainfo).amount = ainfo.amount - 0x1000 * k := by
  induction k generalizing ainfo with
  | zero => exact ⟨rfl, rfl⟩
  | succ k ih =>
    rw [Nat.mul_succ] at hstart hamount ⊢
    rw [← Nat.add_assoc] at hstart
    have hroom : ainfo.start + 0x1000 < 2 ^ 64 := by omega
    have hnextStart : ainfo.next.start = ainfo.start + 0x1000 := by
      simp only [AllocInfo.next]
      rw [add64_of_lt hroom]
    have hnextAmount : ainfo.next.amount = ainfo.amount - 0x1000 := by
      simp only [AllocInfo.next, sub64_of_le (show 0x1000 ≤ ainfo.amount by omega)]
    obtain ⟨hs, ha⟩ := ih ainfo.next (by rw [hnextStart]; omega) (by rw [hnextAmount]; omega)
    rw [Function.iterate_succ_apply, hs, ha, hnextStart, hnextAmount]
    omega

/-- Rounding up to a page stays a word and a multiple of the page size. -/
theorem pageAlignUp_word (v w : ℕ) : pageAlignUp (add64 v w) % 0x1000 = 0 ∧ pageAlignUp (add64 v w) < 2 ^ 64 := by
  have hword := add64_lt v w
  have hup := add64_lt (add64 v w) 0x1000
  unfold pageAlignUp
  split
  · rename_i hmod
    exact ⟨hmod, hword⟩
  · exact ⟨align_mod _, Nat.lt_of_le_of_lt (align_le _).1 hup⟩

/-- The request asks for exactly these pages, from the first of them on. -/
structure Requests (start amount : ℕ) (pages : List ℕ) : Prop where
  all : Machine.allocatePages start amount = pages
  first : pages.head? = some start
  length : amount = 0x1000 * pages.length

/-- A request of whole pages asks for them. -/
theorem requests_of_aligned {start amount : ℕ} (hstart : start % 0x1000 = 0) (hamount : amount % 0x1000 = 0)
    (hend : start + amount < 2 ^ 64) (hpos : 0 < amount) : Requests start amount (pageRange start (start + amount)) := by
  have hlength : (start + amount - start + 0xFFF) / 0x1000 = amount / 0x1000 := by omega
  refine ⟨?_, ?_, ?_⟩
  · unfold Machine.allocatePages
    have hwhole : add64 amount 0 = amount := add64_of_lt (by omega)
    rw [align_of_mod hstart, Nat.sub_self, hwhole, pageAlignUp, if_pos hamount, add64_of_lt hend]
  · unfold pageRange
    rw [hlength, List.head?_map, List.head?_range, if_neg (by omega)]
    simp
  · unfold pageRange
    rw [hlength, List.length_map, List.length_range]
    omega

/-- A reservation that stops leaves a request for exactly the pages it did not reach. -/
theorem allocatePages_rest {ainfo : AllocInfo} {made rest : List ℕ}
    (hpages : Machine.allocatePages ainfo.start ainfo.amount = made ++ rest) (hrest : rest ≠ []) :
    Requests (AllocInfo.next^[made.length] ainfo.aligned).start (AllocInfo.next^[made.length] ainfo.aligned).amount
      rest := by
  obtain ⟨hmod, hword⟩ := pageAlignUp_word ainfo.amount (ainfo.start - align ainfo.start)
  have hstart : ainfo.aligned.start = align ainfo.start := rfl
  have hamount : ainfo.aligned.amount = pageAlignUp (add64 ainfo.amount (ainfo.start - align ainfo.start)) := rfl
  have hdrop : rest = pageRange (align ainfo.start + 0x1000 * made.length)
      (add64 (align ainfo.start) ainfo.aligned.amount) := by
    have hall : rest = (Machine.allocatePages ainfo.start ainfo.amount).drop made.length := by
      rw [hpages, List.drop_left]
    rw [hall, ← pageRange_drop]
    rfl
  obtain ⟨page, hpage⟩ := List.exists_mem_of_ne_nil rest hrest
  rw [hdrop, mem_pageRange] at hpage
  obtain ⟨i, hi, hlimit⟩ := hpage
  rw [← hamount] at hmod hword
  have haligned := align_mod ainfo.start
  have hsum : add64 (align ainfo.start) ainfo.aligned.amount = align ainfo.start + ainfo.aligned.amount := by
    unfold add64 at hlimit ⊢
    omega
  have hbelow : align ainfo.start + ainfo.aligned.amount < 2 ^ 64 := by
    rw [← hsum]
    exact add64_lt _ _
  obtain ⟨hs, ha⟩ := ainfo.aligned.next_iterate made.length (by rw [hstart]; omega) (by omega)
  have hlimit' : align ainfo.start + ainfo.aligned.amount =
      align ainfo.start + 0x1000 * made.length + (ainfo.aligned.amount - 0x1000 * made.length) := by omega
  rw [hs, ha, hstart, hdrop, hsum, hlimit']
  exact requests_of_aligned (by omega) (by omega) (by omega) (by omega)

end Rest

section Arguments

/-- The number of arguments a handler takes besides the pointer to its error word. -/
def Syscall.userArgs (sc : Syscall) : ℕ := if sc.usesError then sc.args - 1 else sc.args

/-- Two lists of arguments agree exactly when as many values agree as the handler takes. -/
theorem handlerArgs_eq_iff {sc : Syscall} (hargs : sc.args ≤ 5) (hzero : sc.usesError = true → sc.args ≠ 0)
    (a b c d e a' b' c' d' e' : ℕ) :
    handlerArgs sc a b c d e = handlerArgs sc a' b' c' d' e' ↔
      (1 ≤ sc.userArgs → a = a') ∧ (2 ≤ sc.userArgs → b = b') ∧ (3 ≤ sc.userArgs → c = c') ∧
        (4 ≤ sc.userArgs → d = d') ∧ (5 ≤ sc.userArgs → e = e') := by
  obtain ⟨usesError, args⟩ := sc
  simp only at hargs hzero
  have hrange : args = 0 ∨ args = 1 ∨ args = 2 ∨ args = 3 ∨ args = 4 ∨ args = 5 := by omega
  cases usesError
  · rcases hrange with rfl | rfl | rfl | rfl | rfl | rfl <;> simp [handlerArgs, Syscall.userArgs]
  · rcases hrange with rfl | rfl | rfl | rfl | rfl | rfl
    · exact absurd rfl (hzero rfl)
    all_goals simp [handlerArgs, Syscall.userArgs]

/-- At a call, the registers recorded are those passed: `rdx`, `r8` and `r9` hold the same as `r8`,
`r9` and `r10`, as far as the handler takes them. -/
def CallAgrees (sc : Syscall) (u : Registers) : Prop :=
  (3 ≤ sc.userArgs → u.rdx = u.r8) ∧ (4 ≤ sc.userArgs → u.r8 = u.r9) ∧ (5 ≤ sc.userArgs → u.r9 = u.r10)

/-- The page is backed or reserved: its entry is present or an on-demand marker. -/
def Reserved (m : Machine) (page : ℕ) : Prop :=
  present (leafEntry m.memory m.activePage page) = true ∨
    bit (leafEntry m.memory m.activePage page) 1 = true ∧ bit (leafEntry m.memory m.activePage page) 3 = true

instance (m : Machine) (page : ℕ) : Decidable (Reserved m page) :=
  inferInstanceAs (Decidable (_ ∨ _))

/-- The pages of an area from the first that is not reserved on. -/
def AreaInProgress.left (a : AreaInProgress) (m : Machine) : List ℕ :=
  a.pages.dropWhile fun page => decide (Reserved m page)

namespace CallState

/-- The range in the first two registers of the last call, from the start of its page on once
`dev_selfmap_physical` had placed an area for it. -/
def asked (s : CallState) : ℕ × ℕ :=
  if s.placed then selfmapRest s.called.rdi s.called.rsi true else (s.called.rdi, s.called.rsi)

/-- At a replay, the saved registers hold what the call still asks for: for an area in progress the first
page that is not reserved, the bytes from there on and the address of the area; else the arguments that
the user called with, as far as the handler takes them, the physical range from the start of its page on
once there was an area for it. -/
def ResumeAgrees (s : CallState) (sc : Syscall) : Prop :=
  match s.allocation with
  | some a =>
    (a.left s.space.machine).head? = some s.user.rdi ∧ s.user.rsi = 0x1000 * (a.left s.space.machine).length ∧
      s.user.rdx = a.address
  | none =>
    (1 ≤ sc.userArgs → s.user.rdi = s.asked.1) ∧ (2 ≤ sc.userArgs → s.user.rsi = s.asked.2) ∧
      (3 ≤ sc.userArgs → s.user.rdx = s.called.rdx) ∧ (4 ≤ sc.userArgs → s.user.r8 = s.called.r8) ∧
      (5 ≤ sc.userArgs → s.user.r9 = s.called.r9)

end CallState

variable {table : SyscallTable} {n : ℕ} {sc : Syscall} (hentry : table.entry n = some sc)
include hentry

/-- What `sys_handler` records is what it passes exactly when the registers agree. -/
theorem recorded_eq_passed_iff (s : CallState) :
    recordedArgs sc s.recorded = passedArgs sc (syscallFrame s.user) ↔ CallAgrees sc s.user := by
  obtain ⟨hargs, hzero⟩ := table.wellFormed n sc hentry
  unfold recordedArgs passedArgs
  rw [handlerArgs_eq_iff hargs hzero]
  constructor
  · rintro ⟨-, -, hc, hd, he⟩
    exact ⟨fun h => (hc h).symm, fun h => (hd h).symm, fun h => (he h).symm⟩
  · rintro ⟨hc, hd, he⟩
    exact ⟨fun _ => rfl, fun _ => rfl, fun h => (hc h).symm, fun h => (hd h).symm, fun h => (he h).symm⟩

end Arguments

section Runs

/-- A reservation keeps what was reserved and reserves its own pages. -/
theorem Reserves.reserved {m m' : Machine} {pages : List ℕ} (h : Reserves m.activePage m m' pages)
    (hactive : m'.activePage = m.activePage) {page : ℕ} (hpage : Reserved m page ∨ page ∈ pages) : Reserved m' page := by
  unfold Reserved
  rw [hactive]
  rcases hpage with hold | hmem
  · rcases h.1 page with hmarked | hsame
    · exact Or.inr hmarked.2
    · rw [hsame]
      exact hold
  · exact Or.inr (h.2 page hmem).2

/-- The pages of an area in front of those left are reserved. -/
theorem AreaInProgress.pages_eq (a : AreaInProgress) (m : Machine) :
    ∃ made, a.pages = made ++ a.left m ∧ ∀ page ∈ made, Reserved m page := by
  refine ⟨a.pages.takeWhile fun page => decide (Reserved m page), List.takeWhile_append_dropWhile.symm,
    fun page hpage => ?_⟩
  have hreserved := List.mem_takeWhile_imp hpage
  exact of_decide_eq_true hreserved

/-- Behind reserved pages the others are left, if the first of them is not reserved. -/
theorem AreaInProgress.left_eq {a : AreaInProgress} {m : Machine} {made rest : List ℕ} (hpages : a.pages = made ++ rest)
    (hmade : ∀ page ∈ made, Reserved m page) (hrest : ∀ page ∈ rest.head?, ¬ Reserved m page) : a.left m = rest := by
  unfold AreaInProgress.left
  rw [hpages, List.dropWhile_append_of_pos fun page hpage => decide_eq_true (hmade page hpage)]
  cases rest with
  | nil => rfl
  | cons page rest => exact List.dropWhile_cons_of_neg (by simpa using hrest page rfl)

/-- The pages left are the same where the same pages of the area are reserved. -/
theorem AreaInProgress.left_congr {a : AreaInProgress} {m m' : Machine}
    (h : ∀ page ∈ a.pages, Reserved m page ↔ Reserved m' page) : a.left m' = a.left m := by
  obtain ⟨made, hpages, hmade⟩ := a.pages_eq m
  refine AreaInProgress.left_eq hpages (fun page hpage => ?_) fun page hpage => ?_
  · exact (h page (by rw [hpages]; exact List.mem_append_left _ hpage)).mp (hmade page hpage)
  · have hmem : page ∈ a.pages := by
      rw [hpages]
      exact List.mem_append_right _ (List.mem_of_mem_head? hpage)
    have hfirst := List.head?_dropWhile_not (fun page => decide (Reserved m page)) a.pages
    rw [show List.dropWhile _ _ = a.left m from rfl, Option.mem_def.mp hpage] at hfirst
    rw [← h page hmem]
    exact of_decide_eq_false hfirst

/-- Every switch back to the thread invoked the handlers of the calls that were suspended, with the
arguments that were recorded, and no others, and every call passed what it recorded. An allocation in
progress is to be continued with the rest of its pages and its own address, the pages before being
reserved, and every allocation that ended had its whole area reserved. -/
structure CallState.Replayed (s : CallState) : Prop where
  calls : ∀ p ∈ s.calls, p.recorded = p.passed
  resumptions : ∀ p ∈ s.resumptions, p.invoked = p.waiting
  remaining : ∀ a, s.allocation = some a → s.cont.present = true ∧ s.cont.call = sysAllocCont ∧
    s.cont.arg2 = a.address ∧ ∃ made, a.pages = made ++ Machine.allocatePages s.cont.arg0 s.cont.arg1 ∧
      ∀ page ∈ made, Reserved s.space.machine page
  ended : ∀ e ∈ s.ended, ∀ page ∈ e.pages, Reserved e.machine page

/-- Nothing was called yet, and nothing is to be continued. -/
structure CallState.Fresh (s : CallState) : Prop where
  idle : s.cont.present = false
  allocation : s.allocation = none
  waiting : s.waiting = []
  calls : s.calls = []
  resumptions : s.resumptions = []
  ended : s.ended = []

variable (table : SyscallTable) (roots : Finset ℕ)

/-- What a handler is called with and leaves: an area outside the mirror slot, and for the handlers
that are not modelled an address space in order. -/
def CallState.InvokeSafe (s : CallState) (number size : ℕ) (o : Outcome) : Prop :=
  (number = sysAllocate → ∀ a ∈ s.space.reservedPages size o.random, pmlIndex a ≠ 510) ∧
    (number ≠ sysAllocate → number ≠ sysAllocCont →
      Growable roots o.space.machine ∧ o.space.machine.activePage = s.space.machine.activePage)

/-- The switch comes to the end of `context_switch`: there is a frame, and it is not the user code of the
thread that ran before. -/
def SwitchBack.Ends (w : SwitchBack) : Prop := w.cs ≠ none ∧ (w.same = true → w.cs ≠ some userCode)

/-- The steps on which replays are right. A call is made only when none is to be continued, with
registers that agree with the recorded ones; a thread whose call is suspended is switched back to only
through the end of `context_switch` and with what the call still asks for in its registers; others
reserve no page of an area in progress and take none back. -/
def CallState.Replayable (s : CallState) : CallEvent → Prop
  | .execute _ => True
  | .call o => ∀ sc, s.user.rax < 4096 → s.user.rax ≠ sysAllocCont → table.entry s.user.rax = some sc →
      s.cont.present = false ∧ CallAgrees sc s.user ∧ s.InvokeSafe roots s.user.rax s.user.rdi o
  | .resume w o => s.cont.present = true → w.Ends ∧ ∀ sc, table.entry s.cont.call = some sc →
      s.ResumeAgrees sc ∧ s.InvokeSafe roots s.cont.call s.user.rdi o
  | .others ps => Growable roots ps.machine ∧ ps.machine.activePage = s.space.machine.activePage ∧
      ∀ a, s.allocation = some a → ∀ page ∈ a.pages, Reserved s.space.machine page ↔ Reserved ps.machine page

/-- The continuation is that of the last call, which agreed, with what it still asks for. -/
def CallState.Asks (s : CallState) : Prop :=
  s.cont.call ≠ sysAllocCont ∧ (∃ sc, table.entry s.cont.call = some sc ∧ CallAgrees sc s.called) ∧
    (s.cont.arg0, s.cont.arg1) = s.asked ∧ s.cont.arg2 = s.called.r8 ∧ s.cont.arg3 = s.called.r9 ∧
    s.cont.arg4 = s.called.r10

/-- The replays were right, the address space is in order, the suspended calls are the one in the
continuation, and the continuation holds what its call still asks for. -/
structure CallState.ReplayInv (s : CallState) : Prop where
  calls : ∀ p ∈ s.calls, p.recorded = p.passed
  resumptions : ∀ p ∈ s.resumptions, p.invoked = p.waiting
  ended : ∀ e ∈ s.ended, ∀ page ∈ e.pages, Reserved e.machine page
  growable : Growable roots s.space.machine
  root : align s.space.machine.activePage ∈ roots
  outside : ∀ a, s.allocation = some a → ∀ page ∈ a.pages, pmlIndex page ≠ 510
  waits : s.waiting = if s.cont.present then (table.stored s.cont).toList else []
  continued : ∀ a, s.allocation = some a → s.cont.present = true ∧ s.cont.call = sysAllocCont ∧
    s.cont.arg2 = a.address ∧ Requests s.cont.arg0 s.cont.arg1 (a.left s.space.machine)
  asks : s.cont.present = true → s.allocation = none → s.Asks table

/-- The calls so far and what ended, before a handler runs. -/
structure CallState.Prepared (s : CallState) : Prop where
  calls : ∀ p ∈ s.calls, p.recorded = p.passed
  resumptions : ∀ p ∈ s.resumptions, p.invoked = p.waiting
  ended : ∀ e ∈ s.ended, ∀ page ∈ e.pages, Reserved e.machine page
  growable : Growable roots s.space.machine
  root : align s.space.machine.activePage ∈ roots
  idle : s.cont.present = false
  quiet : s.waiting = []

variable {table : SyscallTable} {roots : Finset ℕ}

/-- The reservation of `allocate_memory_cont` reserves the pages up to where it stops, and leaves a
request for the others, the first of which is not reserved. -/
theorem ProcessSpace.reserve_spec {ps : ProcessSpace} (h : Growable roots ps.machine)
    (hroot : align ps.machine.activePage ∈ roots) {start size : ℕ}
    (hout : ∀ a ∈ Machine.allocatePages start size, pmlIndex a ≠ 510) (stale : ℕ → ℕ) :
    ∃ made rest, Machine.allocatePages start size = made ++ rest ∧
      Growable roots (ps.reserve start size stale).2.machine ∧
      (ps.reserve start size stale).2.machine.activePage = ps.machine.activePage ∧
      Reserves ps.machine.activePage ps.machine (ps.reserve start size stale).2.machine made ∧
      (∀ page ∈ rest.head?, ¬ Reserved (ps.reserve start size stale).2.machine page) ∧
      (ps.reserve start size stale).1.finished = rest.isEmpty ∧
      (rest ≠ [] → Requests (ps.reserve start size stale).1.start (ps.reserve start size stale).1.amount rest) := by
  have haod : (reserveRequest start size).aod = true := rfl
  obtain ⟨m', made, rest, hpages, hgrowable, hactive, hreserves, hzero, hresult⟩ :=
    h.allocateMem_reserve hroot haod rfl false false stale hout
  unfold ProcessSpace.reserve
  dsimp only
  rw [hresult]
  refine ⟨made, rest, hpages, hgrowable, hactive, hreserves, fun page hpage => ?_, rfl,
    fun hrest => allocatePages_rest hpages hrest⟩
  unfold Reserved
  rw [hactive, hzero page hpage]
  decide

/-- The range left twice is the range left once. -/
theorem selfmapRest_selfmapRest (physaddr size : ℕ) (node : Bool) :
    selfmapRest (selfmapRest physaddr size true).1 (selfmapRest physaddr size true).2 node =
      selfmapRest physaddr size true := by
  have hsub (a : ℕ) : sub64 a 0 = a := sub64_of_le (Nat.zero_le a)
  have hself (a : ℕ) : sub64 a a = 0 := (sub64_of_le (Nat.le_refl a)).trans (Nat.sub_self a)
  have haligned : alignDown (alignDown physaddr 0x1000) 0x1000 = alignDown physaddr 0x1000 := by
    unfold alignDown
    omega
  cases node <;> simp [selfmapRest, haligned, hself, hsub]

/-- A range without an area is left as it is. -/
theorem selfmapRest_false (physaddr size : ℕ) : selfmapRest physaddr size false = (physaddr, size) := by
  have hself : sub64 physaddr physaddr = 0 := (sub64_of_le (Nat.le_refl physaddr)).trans (Nat.sub_self physaddr)
  have hsub : sub64 size 0 = size := sub64_of_le (Nat.zero_le size)
  simp [selfmapRest, hself, hsub]

namespace CallState

variable {s : CallState} {sc : Syscall} {r : Frame} {back : Frame → Registers}

/-- A handler that ends, suspended or not, where its continuation holds what is left. -/
theorem Prepared.suspend (h : s.Prepared roots) {suspended : Bool}
    (houtside : ∀ a, s.allocation = some a → ∀ page ∈ a.pages, pmlIndex page ≠ 510)
    (hcontinued : ∀ a, s.allocation = some a → suspended = true ∧ s.cont.call = sysAllocCont ∧
      s.cont.arg2 = a.address ∧ Requests s.cont.arg0 s.cont.arg1 (a.left s.space.machine))
    (hasks : suspended = true → s.allocation = none → s.Asks table) :
    (suspend table suspended s).ReplayInv table roots := by
  cases suspended with
  | true =>
    refine ⟨h.calls, h.resumptions, h.ended, h.growable, h.root, houtside, ?_, hcontinued, fun _ => hasks rfl⟩
    change s.waiting ++ _ = _
    rw [h.quiet]
    rfl
  | false =>
    refine ⟨h.calls, h.resumptions, h.ended, h.growable, h.root, houtside, ?_, fun a ha => ?_, fun hpresent => ?_⟩
    · exact h.quiet.trans (if_neg (by rw [Bool.not_eq_true]; exact h.idle)).symm
    · exact absurd (hcontinued a ha).1 (by decide)
    · exact absurd (h.idle.symm.trans hpresent) (by decide)

/-- `allocate_memory_cont`, called with the rest of an allocation, keeps the replays right. -/
theorem Prepared.allocateMemoryCont (h : s.Prepared roots) {a : AreaInProgress}
    (ha : s.allocation = some a) (hout : ∀ page ∈ a.pages, pmlIndex page ≠ 510) {start size : ℕ} {before : List ℕ}
    (hpages : a.pages = before ++ Machine.allocatePages start size)
    (hbefore : ∀ page ∈ before, Reserved s.space.machine page) (stale : ℕ → ℕ) :
    (allocateMemoryCont table s sc r back start size a.address stale).ReplayInv table roots := by
  obtain ⟨made, rest, hsplit, hgrowable, hactive, hreserves, hstopped, hfinished, hrequest⟩ :=
    ProcessSpace.reserve_spec h.growable h.root
      (fun page hpage => hout page (by rw [hpages]; exact List.mem_append_right _ hpage)) stale
  have hreserved (page : ℕ) (hpage : page ∈ before ++ made) :
      Reserved (s.space.reserve start size stale).2.machine page :=
    hreserves.reserved hactive ((List.mem_append.mp hpage).imp_left (hbefore page))
  have hall : a.pages = (before ++ made) ++ rest := by rw [hpages, hsplit, List.append_assoc]
  have hroot : align (s.space.reserve start size stale).2.machine.activePage ∈ roots := by
    rw [hactive]
    exact h.root
  unfold CallState.allocateMemoryCont
  rw [ha]
  generalize s.space.reserve start size stale = q at *
  dsimp only
  by_cases hrest : rest = []
  · -- the area is complete
    have hdone : q.1.finished = true := by rw [hfinished, hrest]; rfl
    rw [hrest, List.append_nil] at hall
    simp only [hdone, if_true]
    apply Prepared.suspend
    · refine ⟨h.calls, h.resumptions, ?_, hgrowable, hroot, h.idle, h.quiet⟩
      intro e he page hpage
      rcases List.mem_append.mp he with hold | hnew
      · exact h.ended e hold page hpage
      · obtain rfl := List.mem_singleton.mp hnew
        exact hreserved page (by rwa [← hall])
    · exact fun a' ha' => absurd ha' (by simp)
    · exact fun a' ha' => absurd ha' (by simp)
    · exact fun hsuspended => absurd hsuspended (by decide)
  · -- the request for the other pages is recorded
    have hopen : q.1.finished = false := by rw [hfinished]; simpa using hrest
    have hleft : a.left q.2.machine = rest := AreaInProgress.left_eq hall hreserved hstopped
    simp only [hopen, Bool.false_eq_true, if_false]
    apply Prepared.suspend
    · exact ⟨h.calls, h.resumptions, h.ended, hgrowable, hroot, h.idle, h.quiet⟩
    · intro a' ha'
      obtain rfl := Option.some.inj ha'
      exact hout
    · intro a' ha'
      obtain rfl := Option.some.inj ha'
      refine ⟨rfl, rfl, rfl, ?_⟩
      change Requests q.1.start q.1.amount (a.left q.2.machine)
      rw [hleft]
      exact hrequest hrest
    · exact fun _ hnone => absurd hnone (by simp)

/-- `allocate_memory` keeps the replays right. -/
theorem Prepared.allocateMemory (h : s.Prepared roots) (hnone : s.allocation = none) {size : ℕ} {o : Outcome}
    (hout : ∀ a ∈ s.space.reservedPages size o.random, pmlIndex a ≠ 510) (hasks : s.Asks table) :
    (allocateMemory table s sc r back size o).ReplayInv table roots := by
  unfold CallState.allocateMemory
  split
  · have hpages : s.space.reservedPages size o.random =
        [] ++ Machine.allocatePages (heapArea s.space.areas size o.random).vastart size := rfl
    have hplaced : ({ s with
        space := s.space.placeHeap size o.random
        allocation := some ⟨(heapArea s.space.areas size o.random).vastart,
          s.space.reservedPages size o.random⟩ } : CallState).Prepared roots :=
      ⟨h.calls, h.resumptions, h.ended, h.growable, h.root, h.idle, h.quiet⟩
    exact hplaced.allocateMemoryCont rfl hout hpages (by simp) o.stale
  · have hreturned : ({ s with user := back (doSysHandler sc (fun _ => ⟨0, 0, r, true⟩) r) } : CallState).Prepared roots :=
      ⟨h.calls, h.resumptions, h.ended, h.growable, h.root, h.idle, h.quiet⟩
    exact hreturned.suspend (by simp [hnone]) (by simp [hnone]) fun _ _ => hasks

/-- Any other handler keeps the replays right. -/
theorem Prepared.otherHandler (h : s.Prepared roots) (hnone : s.allocation = none) {o : Outcome} {number : ℕ}
    (hasks : s.Asks table) (hrange : number = devSysMapPhysicalSelf → (r.rdi, r.rsi) = s.asked)
    (hsafe : Growable roots o.space.machine ∧ o.space.machine.activePage = s.space.machine.activePage) :
    (otherHandler table s number sc r back o).ReplayInv table roots := by
  obtain ⟨hcall, hentry, hargs, hrest⟩ := hasks
  have hroot : align o.space.machine.activePage ∈ roots := by
    rw [hsafe.2]
    exact h.root
  unfold CallState.otherHandler
  dsimp only
  by_cases hremapped : number = devSysMapPhysicalSelf ∧ o.answer.present = true
  · -- the range left is what the call asked for, from its page on
    obtain ⟨rfl, hpresent⟩ := hremapped
    simp only [hpresent, decide_true, Bool.and_self, if_true, Bool.true_and]
    apply Prepared.suspend
    · exact ⟨h.calls, h.resumptions, h.ended, hsafe.1, hroot, h.idle, h.quiet⟩
    · exact fun a ha => absurd (hnone.symm.trans ha) (by simp)
    · exact fun a ha => absurd (hnone.symm.trans ha) (by simp)
    refine fun _ _ => ⟨hcall, hentry, ?_, hrest⟩
    obtain ⟨hrdi, hrsi⟩ := Prod.mk.inj (hrange rfl)
    rw [hrdi, hrsi]
    change selfmapRest s.asked.1 s.asked.2 o.node = if (s.placed || o.node) = true then _ else _
    unfold asked
    cases s.placed with
    | true => exact selfmapRest_selfmapRest _ _ _
    | false =>
      cases o.node with
      | true => rfl
      | false => exact selfmapRest_false _ _
  · have hkept : (decide (number = devSysMapPhysicalSelf) && o.answer.present) = false := by
      rw [Bool.eq_false_iff]
      simpa using hremapped
    simp only [hkept, Bool.false_eq_true, if_false, Bool.false_and, Bool.or_false]
    apply Prepared.suspend
    · exact ⟨h.calls, h.resumptions, h.ended, hsafe.1, hroot, h.idle, h.quiet⟩
    · exact fun a ha => absurd (hnone.symm.trans ha) (by simp)
    · exact fun a ha => absurd (hnone.symm.trans ha) (by simp)
    · exact fun _ _ => ⟨hcall, hentry, hargs, hrest⟩

/-- A handler other than `allocate_memory_cont` keeps the replays right. -/
theorem Prepared.invoke (h : s.Prepared roots) (hnone : s.allocation = none) (hasks : s.Asks table) {o : Outcome}
    (hrange : s.cont.call = devSysMapPhysicalSelf → (r.rdi, r.rsi) = s.asked)
    (hsafe : s.InvokeSafe roots s.cont.call r.rdi o) :
    (invoke table s s.cont.call sc r back o).ReplayInv table roots := by
  have hlogged : ({ s with
      invocations := s.invocations ++ (passedArgs sc r).toList.map (HandlerCall.mk s.cont.call) } :
        CallState).Prepared roots :=
    ⟨h.calls, h.resumptions, h.ended, h.growable, h.root, h.idle, h.quiet⟩
  unfold CallState.invoke
  dsimp only
  split
  next hallocate => exact hlogged.allocateMemory hnone (hsafe.1 hallocate) hasks
  next hallocate =>
    rw [if_neg hasks.1]
    exact hlogged.otherHandler hnone hasks hrange (hsafe.2 hallocate hasks.1)

/-- Suspending invokes nothing. -/
theorem suspend_invocations (suspended : Bool) : (suspend table suspended s).invocations = s.invocations := by
  cases suspended <;> rfl

/-- Every invocation is of one handler, with the arguments passed. -/
theorem invoke_invocations (number : ℕ) (o : Outcome) :
    (invoke table s number sc r back o).invocations =
      s.invocations ++ (passedArgs sc r).toList.map (HandlerCall.mk number) := by
  unfold CallState.invoke CallState.allocateMemory CallState.allocateMemoryCont CallState.otherHandler
  dsimp only
  split
  · split <;> rw [suspend_invocations]
  · split <;> rw [suspend_invocations]

/-- A call keeps the replays right. -/
theorem ReplayInv.sysHandler (h : s.ReplayInv table roots) {o : Outcome} (hguard : s.Replayable table roots (.call o)) :
    (s.sysHandler table o).ReplayInv table roots := by
  have hsame (u : Registers) : ({ s with user := u } : CallState).ReplayInv table roots :=
    ⟨h.calls, h.resumptions, h.ended, h.growable, h.root, h.outside, h.waits, h.continued, h.asks⟩
  unfold CallState.sysHandler
  dsimp only
  split
  · exact hsame _
  · rename_i hrange
    split
    · exact hsame _
    · rename_i sc hentry
      split
      · exact hsame _
      · rename_i hcont
        obtain ⟨hidle, hagrees, hsafe⟩ := hguard sc (Nat.lt_of_not_le hrange) hcont hentry
        have hnone : s.allocation = none := by
          by_contra hsome
          obtain ⟨a, ha⟩ := Option.ne_none_iff_exists'.mp hsome
          exact absurd (hidle.symm.trans (h.continued a ha).1) (by decide)
        have hpair := (recorded_eq_passed_iff hentry s).mpr hagrees
        have hprepared : ({ s with
            cont := s.recorded
            called := s.user
            placed := false
            calls := s.calls ++ [ArgPair.mk (recordedArgs sc s.recorded) (passedArgs sc (syscallFrame s.user))] } :
              CallState).Prepared roots := by
          refine ⟨fun p hp => ?_, h.resumptions, h.ended, h.growable, h.root, hidle, ?_⟩
          · rcases List.mem_append.mp hp with hold | hnew
            · exact h.calls p hold
            · obtain rfl := List.mem_singleton.mp hnew
              exact hpair
          · exact h.waits.trans (if_neg (by rw [hidle]; decide))
        exact hprepared.invoke hnone ⟨hcont, ⟨sc, hentry, hagrees⟩, rfl, rfl, rfl, rfl⟩ (fun _ => rfl) hsafe

/-- What a replay of a suspended call passes is what was recorded for it. -/
theorem ReplayInv.recorded_eq_passed (h : s.ReplayInv table roots) (hpresent : s.cont.present = true)
    (hentry : table.entry s.cont.call = some sc) (hagrees : s.ResumeAgrees sc) :
    recordedArgs sc s.cont = passedArgs sc (interruptFrame s.user) := by
  obtain ⟨hargs, hzero⟩ := table.wellFormed _ sc hentry
  unfold recordedArgs passedArgs
  rw [handlerArgs_eq_iff hargs hzero]
  cases ha : s.allocation with
  | some a =>
    obtain ⟨-, hcall, haddress, hrequest⟩ := h.continued a ha
    rw [hcall, table.allocCont] at hentry
    obtain rfl := Option.some.inj hentry
    rw [ResumeAgrees, ha] at hagrees
    obtain ⟨hrdi, hrsi, hrdx⟩ := hagrees
    refine ⟨fun _ => Option.some.inj (hrequest.first.symm.trans hrdi), fun _ => hrequest.length.trans hrsi.symm,
      fun _ => haddress.trans hrdx.symm, fun hfour => ?_, fun hfive => ?_⟩
    · exact absurd hfour (by decide)
    · exact absurd hfive (by decide)
  | none =>
    obtain ⟨-, ⟨sc', hentry', hc, hd, he⟩, hrange, harg2, harg3, harg4⟩ := h.asks hpresent ha
    rw [hentry] at hentry'
    obtain rfl := Option.some.inj hentry'
    obtain ⟨harg0, harg1⟩ := Prod.mk.inj hrange
    rw [ResumeAgrees, ha] at hagrees
    obtain ⟨hrdi, hrsi, hrdx, hr8, hr9⟩ := hagrees
    exact ⟨fun hn => harg0.trans (hrdi hn).symm, fun hn => harg1.trans (hrsi hn).symm,
      fun hn => harg2.trans ((hc hn).symm.trans (hrdx hn).symm),
      fun hn => harg3.trans ((hd hn).symm.trans (hr8 hn).symm),
      fun hn => harg4.trans ((he hn).symm.trans (hr9 hn).symm)⟩

/-- A replay keeps the replays right, its handler getting what the call still asks for. -/
theorem ReplayInv.replay (h : s.ReplayInv table roots) (hpresent : s.cont.present = true)
    (hentry : table.entry s.cont.call = some sc) (hagrees : s.ResumeAgrees sc) {o : Outcome}
    (hsafe : s.InvokeSafe roots s.cont.call s.user.rdi o) :
    (invoke table { s with waiting := [], cont := { s.cont with present := false } } s.cont.call sc
      (interruptFrame s.user) interruptReturn o).ReplayInv table roots := by
  have hprepared : ({ s with waiting := [], cont := { s.cont with present := false } } : CallState).Prepared roots :=
    ⟨h.calls, h.resumptions, h.ended, h.growable, h.root, rfl, rfl⟩
  rcases Option.eq_none_or_eq_some s.allocation with ha | ⟨a, ha⟩
  · have hasks := h.asks hpresent ha
    have hrange : s.cont.call = devSysMapPhysicalSelf → ((interruptFrame s.user).rdi, (interruptFrame s.user).rsi) = s.asked := by
      intro hself
      rw [hself, table.mapPhysicalSelf] at hentry
      obtain rfl := Option.some.inj hentry
      rw [ResumeAgrees, ha] at hagrees
      exact Prod.ext (hagrees.1 (by decide)) (hagrees.2.1 (by decide))
    exact hprepared.invoke ha hasks hrange hsafe
  · -- the saved registers hold the rest of the area and its address
    obtain ⟨-, hcall, -, hrequest⟩ := h.continued a ha
    rw [ResumeAgrees, ha] at hagrees
    obtain ⟨hrdi, hrsi, hrdx⟩ := hagrees
    obtain ⟨before, hpages, hbefore⟩ := a.pages_eq s.space.machine
    have hstart : s.cont.arg0 = s.user.rdi := Option.some.inj (hrequest.first.symm.trans hrdi)
    have hsize : s.cont.arg1 = s.user.rsi := hrequest.length.trans hrsi.symm
    rw [← hrequest.all, hstart, hsize] at hpages
    have hlogged : ({ s with
        waiting := []
        cont := { s.cont with present := false }
        invocations := s.invocations ++ (passedArgs sc (interruptFrame s.user)).toList.map (HandlerCall.mk s.cont.call) } :
          CallState).Prepared roots :=
      ⟨h.calls, h.resumptions, h.ended, h.growable, h.root, rfl, rfl⟩
    unfold CallState.invoke
    dsimp only
    rw [if_neg (by rw [hcall]; decide), if_pos hcall]
    have haddress : (interruptFrame s.user).rdx = a.address := hrdx
    rw [haddress]
    exact hlogged.allocateMemoryCont ha (h.outside a ha) hpages hbefore o.stale

/-- A switch back keeps the replays right. -/
theorem ReplayInv.switchBack (h : s.ReplayInv table roots) {w : SwitchBack} {o : Outcome}
    (hguard : s.Replayable table roots (.resume w o)) : (s.switchBack table w o).ReplayInv table roots := by
  have hadd {s' : CallState} (hs' : s'.ReplayInv table roots) (p : Resumption) (hp : p.invoked = p.waiting) :
      ({ s' with resumptions := s'.resumptions ++ [p] } : CallState).ReplayInv table roots := by
    refine ⟨hs'.calls, fun q hq => ?_, hs'.ended, hs'.growable, hs'.root, hs'.outside, hs'.waits, hs'.continued, hs'.asks⟩
    rcases List.mem_append.mp hq with hold | hnew
    · exact hs'.resumptions q hold
    · obtain rfl := List.mem_singleton.mp hnew
      exact hp
  unfold CallState.switchBack CallState.contextSwitch
  dsimp only
  cases hpresent : s.cont.present with
  | false =>
    -- nothing is suspended, and nothing is invoked
    have hwaiting : s.waiting = [] := h.waits.trans (if_neg (by rw [hpresent]; decide))
    have hstill : ({ s with waiting := [] } : CallState).ReplayInv table roots :=
      ⟨h.calls, h.resumptions, h.ended, h.growable, h.root, h.outside,
        (if_neg (by rw [Bool.not_eq_true]; exact hpresent)).symm, h.continued, h.asks⟩
    simp only [Bool.false_eq_true, if_false, ite_self]
    exact hadd hstill _ (by simp [hwaiting])
  | true =>
    obtain ⟨⟨hframe, hother⟩, hreplay⟩ := hguard hpresent
    have hentry : ∃ sc, table.entry s.cont.call = some sc := by
      cases ha : s.allocation with
      | some a => exact ⟨_, by rw [(h.continued a ha).2.1]; exact table.allocCont⟩
      | none => exact (h.asks hpresent ha).2.1.imp fun _ hsc => hsc.1
    obtain ⟨sc, hentry⟩ := hentry
    obtain ⟨hagrees, hsafe⟩ := hreplay sc hentry
    rw [if_neg fun hsame => hother hsame.1 hsame.2, if_neg hframe, if_pos rfl, hentry]
    refine hadd (h.replay hpresent hentry hagrees hsafe) _ ?_
    change List.drop _ (invoke table _ _ _ _ _ _).invocations = s.waiting
    rw [invoke_invocations, List.drop_left, h.waits, if_pos hpresent, SyscallTable.stored, hentry, Option.bind_some,
      h.recorded_eq_passed hpresent hentry hagrees]
    cases passedArgs sc (interruptFrame s.user) <;> rfl

/-- One step that meets the condition keeps the replays right. -/
theorem ReplayInv.step (h : s.ReplayInv table roots) {e : CallEvent} (hguard : s.Replayable table roots e) :
    (callStep table s e).ReplayInv table roots := by
  cases e with
  | execute u =>
    exact ⟨h.calls, h.resumptions, h.ended, h.growable, h.root, h.outside, h.waits, h.continued, h.asks⟩
  | call o => exact h.sysHandler hguard
  | resume w o => exact h.switchBack hguard
  | others ps =>
    obtain ⟨hgrowable, hactive, hkeep⟩ := hguard
    refine ⟨h.calls, h.resumptions, h.ended, hgrowable, ?_, h.outside, h.waits, fun a ha => ?_, h.asks⟩
    · change align ps.machine.activePage ∈ roots
      rw [hactive]
      exact h.root
    · obtain ⟨hpresent, hcall, haddress, hrequest⟩ := h.continued a ha
      refine ⟨hpresent, hcall, haddress, ?_⟩
      change Requests s.cont.arg0 s.cont.arg1 (a.left ps.machine)
      rw [AreaInProgress.left_congr (hkeep a ha)]
      exact hrequest

/-- The replays were right where the invariant holds. -/
theorem ReplayInv.replayed (h : s.ReplayInv table roots) : s.Replayed := by
  refine ⟨h.calls, h.resumptions, fun a ha => ?_, h.ended⟩
  obtain ⟨hpresent, hcall, haddress, hrequest⟩ := h.continued a ha
  obtain ⟨made, hpages, hmade⟩ := a.pages_eq s.space.machine
  exact ⟨hpresent, hcall, haddress, made, by rw [hrequest.all]; exact hpages, hmade⟩

end CallState

/-- Continuation replay. On every run whose calls find agreeing registers and none to be continued, and
whose threads with a suspended call are switched back to through the end of `context_switch` with what the
call still asks for in their registers, every switch back invokes exactly the suspended call with the
arguments recorded for it, every call passes what it recorded, an allocation in progress is continued with
the rest of its area, and every allocation that ends has its whole area reserved. -/
theorem continuations_replayed (table : SyscallTable) (roots : Finset ℕ) (s : CallState) (hfresh : s.Fresh)
    (hgrowable : Growable roots s.space.machine) (hroot : align s.space.machine.activePage ∈ roots)
    (events : List CallEvent)
    (hguard : Guarded (callStep table) (fun s e => s.Replayable table roots e) s events) :
    (run (callStep table) s events).Replayed := by
  have hinit : s.ReplayInv table roots :=
    ⟨by simp [hfresh.calls], by simp [hfresh.resumptions], by simp [hfresh.ended], hgrowable, hroot,
      by simp [hfresh.allocation], by simp [hfresh.waiting, hfresh.idle], by simp [hfresh.allocation],
      fun hpresent => absurd (hfresh.idle.symm.trans hpresent) (by decide)⟩
  exact (hguard.invariant (fun s : CallState => s.ReplayInv table roots) (fun s e hs hguard => hs.step hguard)
    hinit).replayed

/-- User code about to make a call with one argument. -/
def callingUser (rax rdi : ℕ) : Registers where
  rip := 0x400000
  rsp := 0x7FF000
  rax := rax
  rbx := 0
  rcx := 0
  rdx := 0
  rsi := 0
  rdi := rdi
  rbp := 0
  r8 := 0
  r9 := 0
  r10 := 0
  r11 := 0
  r12 := 0
  r13 := 0
  r14 := 0
  r15 := 0
  rflags := 0x200

/-- A thread of a process, about to make its first call. -/
def callingThread (ps : ProcessSpace) (rax rdi : ℕ) : CallState where
  space := ps
  user := callingUser rax rdi
  cont := ⟨0, 0, 0, 0, 0, 0, false⟩
  allocation := none
  called := callingUser rax rdi
  placed := false
  waiting := []
  invocations := []
  calls := []
  resumptions := []
  ended := []

/-- A call of `sys_send_message` with argument 7 that suspends, or is done. -/
def sendOutcome (present : Bool) : Outcome where
  random := 0x400000
  node := true
  stale := fun _ => 0
  answer := ⟨0, 0, interruptFrame (callingUser 5 7), present⟩
  space := blankProcess

/-- A switch from another thread. -/
def switchedBack : SwitchBack := ⟨false, some userCode⟩

/-- A message that could not be sent is sent again with the same argument. -/
theorem continuations_replayed_send :
    (run (callStep initializeSystemCalls) (callingThread blankProcess 5 7)
      [.call (sendOutcome true), .resume switchedBack (sendOutcome false)]).resumptions = [⟨[⟨5, [7]⟩], [⟨5, [7]⟩]⟩] ∧
      (run (callStep initializeSystemCalls) (callingThread blankProcess 5 7)
        [.call (sendOutcome true), .resume switchedBack (sendOutcome false)]).Replayed := by
  have hspace : Growable {0x100000} blankProcess.machine := blankMachine_oneReference.growable (List.cons_ne_nil _ _)
  refine ⟨by decide +kernel, continuations_replayed initializeSystemCalls {0x100000} (callingThread blankProcess 5 7)
    ⟨rfl, rfl, rfl, rfl, rfl, rfl⟩ hspace (by decide) _ ⟨?_, ?_, trivial⟩⟩
  · intro sc _ _ hentry
    obtain rfl : (⟨false, 1⟩ : Syscall) = sc := Option.some.inj hentry
    exact ⟨rfl, ⟨by decide, by decide, by decide⟩, by decide, fun _ _ => ⟨hspace, rfl⟩⟩
  · refine fun _ => ⟨⟨by decide, by decide⟩, fun sc hentry => ?_⟩
    obtain rfl : (⟨false, 1⟩ : Syscall) = sc := Option.some.inj hentry
    exact ⟨⟨fun _ => rfl, by decide, by decide, by decide, by decide⟩, by decide, fun _ _ => ⟨hspace, rfl⟩⟩

/-- A process whose machine has no free frame left. -/
def exhaustedProcess : ProcessSpace :=
  ⟨{ blankMachine with framePool := [{ smallRegion.build with head := none }] }, []⟩

/-- An allocation of one page without a free frame: the switch back calls `allocate_memory_cont` with the
registers of the first call, the size where the rest of the area should be. -/
theorem continuation_replay_wrong :
    (run (callStep initializeSystemCalls) (callingThread exhaustedProcess 1 0x1000)
        [.call (sendOutcome false), .resume switchedBack (sendOutcome false)]).resumptions =
      [⟨[⟨10, [0x401000, 0x1000, 0x401000]⟩], [⟨10, [0x1000, 0, 0]⟩]⟩] ∧
      ¬ (run (callStep initializeSystemCalls) (callingThread exhaustedProcess 1 0x1000)
        [.call (sendOutcome false), .resume switchedBack (sendOutcome false)]).Replayed := by
  have hresumptions : (run (callStep initializeSystemCalls) (callingThread exhaustedProcess 1 0x1000)
      [.call (sendOutcome false), .resume switchedBack (sendOutcome false)]).resumptions =
      [⟨[⟨10, [0x401000, 0x1000, 0x401000]⟩], [⟨10, [0x1000, 0, 0]⟩]⟩] := by decide +kernel
  refine ⟨hresumptions, fun hreplayed => ?_⟩
  have hpair := hreplayed.resumptions _ (by rw [hresumptions]; exact List.mem_singleton_self _)
  exact absurd hpair (by decide)

end Runs

end Cthulhu
