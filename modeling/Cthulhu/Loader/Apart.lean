import Cthulhu.Loader.Mapped
import Cthulhu.Loader.Transfer

/-!
# Copies to frames of their own

A copy to user bytes whose frames are no page tables changes no translation on its way, so that it meets a fault
exactly where a byte of its source cannot be read.
-/

namespace Cthulhu

open Lib

namespace Machine

variable (m : Machine)

/-- The tables that `get_page` goes through for an address. -/
def pageTables (cr3 va : ℕ) : List ℕ :=
  let pdpt := align (m.load ⟨align cr3, pmlIndex va⟩)
  let pdir := align (m.load ⟨pdpt, directoryPtrIndex va⟩)
  let pt := align (m.load ⟨pdir, directoryIndex va⟩)
  [align cr3, pdpt, pdir, pt]

/-- The tables that the processor goes through for an address. -/
def hardwareTables (va : ℕ) : List ℕ :=
  let pdpt := entryFrame (m.load ⟨entryFrame m.activePage, pmlIndex va⟩)
  let pdir := entryFrame (m.load ⟨pdpt, directoryPtrIndex va⟩)
  let pt := entryFrame (m.load ⟨pdir, directoryIndex va⟩)
  [entryFrame m.activePage, pdpt, pdir, pt]

/-- The frame is no table of the active address space and of another one. -/
structure NoTable (cr3 f : ℕ) : Prop where
  other : ∀ va, f ∉ m.pageTables cr3 va
  active : ∀ va, f ∉ m.pageTables m.activePage va
  processor : ∀ va, f ∉ m.hardwareTables va

/-- The machine with other words in a frame. -/
def withFrame (f : ℕ) (words : ℕ → ℕ) : Machine := { m with memory := Function.update m.memory f words }

end Machine

section Tables

variable {m : Machine} {cr3 f va : ℕ} {words : ℕ → ℕ}

/-- The entries of the other frames. -/
theorem Machine.withFrame_load {table : ℕ} (h : f ≠ table) (index : ℕ) :
    (m.withFrame f words).load ⟨table, index⟩ = m.load ⟨table, index⟩ := by
  unfold Machine.withFrame Machine.load
  dsimp only
  rw [Function.update_of_ne (Ne.symm h)]

/-- The walk of `get_page` does not see a frame that it does not go through. -/
theorem Machine.withFrame_pageTables (h : f ∉ m.pageTables cr3 va) :
    (m.withFrame f words).pageTables cr3 va = m.pageTables cr3 va := by
  unfold Machine.pageTables at h ⊢
  simp only [List.mem_cons, List.not_mem_nil, not_or, or_false] at h
  obtain ⟨hroot, hpdpt, hpdir, -⟩ := h
  dsimp only
  rw [Machine.withFrame_load hroot, Machine.withFrame_load hpdpt, Machine.withFrame_load hpdir]

/-- The entry that `get_page` finds. -/
theorem Machine.withFrame_getPage (h : f ∉ m.pageTables cr3 va) :
    ((m.withFrame f words).getPage va cr3 false false).1.map (m.withFrame f words).load =
      (m.getPage va cr3 false false).1.map m.load := by
  unfold Machine.pageTables at h
  simp only [List.mem_cons, List.not_mem_nil, not_or, or_false] at h
  obtain ⟨hroot, hpdpt, hpdir, hpt⟩ := h
  unfold Machine.getPage
  dsimp only
  simp only [Machine.descend_false, Machine.withFrame_load hroot]
  cases hfirst : present (m.load ⟨align cr3, pmlIndex va⟩) with
  | false => rfl
  | true =>
    simp only [if_true, Machine.withFrame_load hpdpt]
    cases hsecond : present (m.load ⟨align (m.load ⟨align cr3, pmlIndex va⟩), directoryPtrIndex va⟩) with
    | false => rfl
    | true =>
      simp only [if_true, Machine.withFrame_load hpdir]
      split
      · rfl
      · rename_i pt hthird
        split at hthird
        · obtain rfl := Option.some.inj hthird
          simp only [Option.map_some, Machine.withFrame_load hpt]
        · exact absurd hthird (by simp)

/-- The entry that a walk sees, or zero. -/
theorem Machine.pageEntry_eq_getD (m : Machine) (va cr3 : ℕ) :
    m.pageEntry va cr3 = ((m.getPage va cr3 false false).1.map m.load).getD 0 := by
  unfold Machine.pageEntry
  cases (m.getPage va cr3 false false).1 with
  | none => rfl
  | some p => rfl

/-- The processor does not see a frame that it does not go through. -/
theorem Machine.withFrame_hardwareTables (h : f ∉ m.hardwareTables va) :
    (m.withFrame f words).hardwareTables va = m.hardwareTables va ∧
      (m.withFrame f words).hardwareTranslate va = m.hardwareTranslate va := by
  unfold Machine.hardwareTables at h ⊢
  simp only [List.mem_cons, List.not_mem_nil, not_or, or_false] at h
  obtain ⟨hroot, hpdpt, hpdir, hpt⟩ := h
  have hactive : (m.withFrame f words).activePage = m.activePage := rfl
  constructor
  · dsimp only
    rw [hactive, Machine.withFrame_load hroot, Machine.withFrame_load hpdpt, Machine.withFrame_load hpdir]
  · unfold Machine.hardwareTranslate
    dsimp only
    rw [hactive, Machine.withFrame_load hroot, Machine.withFrame_load hpdpt, Machine.withFrame_load hpdir,
      Machine.withFrame_load hpt]

/-- A frame that is no table is none whatever it holds. -/
theorem Machine.NoTable.withFrame (h : m.NoTable cr3 f) {g : ℕ} (hg : m.NoTable cr3 g) :
    (m.withFrame f words).NoTable cr3 g := by
  refine ⟨fun va => ?_, fun va => ?_, fun va => ?_⟩
  · rw [Machine.withFrame_pageTables (h.other va)]
    exact hg.other va
  · change g ∉ (m.withFrame f words).pageTables m.activePage va
    rw [Machine.withFrame_pageTables (h.active va)]
    exact hg.active va
  · rw [(Machine.withFrame_hardwareTables (h.processor va)).1]
    exact hg.processor va

end Tables

namespace Kernel

variable (s : Kernel)

/-- The byte that the kernel copies from an address of the active space can be read: the address is a kernel address that
is mapped, or its entry names a frame in the mirror. -/
def readable (a : ℕ) : Bool :=
  s.reachable (s.pointer s.machine.activePage a) 1 && (s.load (s.pointer s.machine.activePage a) 0).isSome

/-- The bytes are user bytes of an address space, in frames behind the mirror that are no page tables. -/
structure Apart (cr3 a n : ℕ) : Prop where
  below : a + n ≤ kernelStart
  frame : ∀ k < n, ∃ entry, s.lookup (a + k) cr3 = some entry ∧ align entry ≠ 0 ∧ align entry < 2 ^ 39 ∧
    s.machine.NoTable cr3 (align entry)

end Kernel

section Fills

variable {s : Kernel} {cr3 f n : ℕ}

/-- Bytes in a frame that is no table change nothing that is looked up. -/
theorem Machine.NoTable.writeFrame (h : s.machine.NoTable cr3 f) (offs n : ℕ) (source : ℕ → ℕ) :
    (∀ a, (s.writeFrame f offs n source).lookup a cr3 = s.lookup a cr3) ∧
      (∀ a, (s.writeFrame f offs n source).mapped a = s.mapped a) ∧
        ∀ a, (s.writeFrame f offs n source).readable a = s.readable a := by
  have hlookup (cr3' : ℕ) (hout : ∀ va, f ∉ s.machine.pageTables cr3' va) (a : ℕ) :
      (s.writeFrame f offs n source).lookup a cr3' = s.lookup a cr3' := by
    unfold Kernel.lookup
    split
    · rfl
    · exact Machine.withFrame_getPage (hout a)
  have hmapped (a : ℕ) : (s.writeFrame f offs n source).mapped a = s.mapped a := by
    unfold Kernel.mapped
    exact congrArg Option.isSome (Machine.withFrame_hardwareTables (h.processor a)).2
  refine ⟨hlookup cr3 h.other, hmapped, fun a => ?_⟩
  have hpointer : (s.writeFrame f offs n source).pointer s.machine.activePage a = s.pointer s.machine.activePage a := by
    unfold Kernel.pointer
    rw [hlookup _ h.active]
  have huser (b : ℕ) : ((s.writeFrame f offs n source).userByte s.machine.activePage b).isSome =
      (s.userByte s.machine.activePage b).isSome := by
    have hentry : (s.writeFrame f offs n source).machine.pageEntry b s.machine.activePage =
        s.machine.pageEntry b s.machine.activePage := by
      rw [Machine.pageEntry_eq_getD, Machine.pageEntry_eq_getD]
      exact congrArg (Option.getD · 0) (Machine.withFrame_getPage (h.active b))
    unfold Kernel.userByte
    dsimp only
    rw [hentry]
    split <;> rfl
  unfold Kernel.readable
  change ((s.writeFrame f offs n source).reachable ((s.writeFrame f offs n source).pointer s.machine.activePage a) 1 &&
    ((s.writeFrame f offs n source).load ((s.writeFrame f offs n source).pointer s.machine.activePage a) 0).isSome) = _
  rw [hpointer]
  cases s.pointer s.machine.activePage a with
  | mirror g o => rfl
  | address b =>
    unfold Kernel.reachable Kernel.load
    dsimp only
    simp only [hmapped]
    congr 1
    split
    · rfl
    · exact huser _

/-- What is left of a range when bytes of its first page were written. -/
theorem Kernel.Apart.rest {a c : ℕ} (h : s.Apart cr3 a n) (hc : c ≤ n) (hf : s.machine.NoTable cr3 f)
    (offs count : ℕ) (source : ℕ → ℕ) : (s.writeFrame f offs count source).Apart cr3 (a + c) (n - c) := by
  refine ⟨by have := h.below; omega, fun k hk => ?_⟩
  obtain ⟨entry, hfound, hne, hlow, hnot⟩ := h.frame (c + k) (by omega)
  rw [← Nat.add_assoc] at hfound
  exact ⟨entry, ((hf.writeFrame offs count source).1 _).trans hfound, hne, hlow, hf.withFrame hnot⟩

end Fills

section Loops

variable {s : Kernel} {cr3 v n src dest : ℕ}

/-- `memset_dpgs` fills user bytes with frames of their own without a fault. -/
theorem Kernel.Apart.memset {fuel : ℕ} (h : s.Apart cr3 src n) (hfuel : n ≤ fuel) :
    ∃ s', Kernel.memsetDpgsMappedLoop cr3 v fuel s src (src % 0x1000) n = some s' ∧ ∀ a, s'.mapped a = s.mapped a := by
  induction fuel generalizing s src n with
  | zero => exact ⟨s, rfl, fun _ => rfl⟩
  | succ fuel ih =>
    unfold Kernel.memsetDpgsMappedLoop
    by_cases hzero : n = 0
    · rw [if_pos hzero]
      exact ⟨s, rfl, fun _ => rfl⟩
    have hbelow := h.below
    have hstart : kernelStart = 0xFFFF000000000000 := rfl
    have hoffs : src % 0x1000 < 0x1000 := Nat.mod_lt _ (by decide)
    have huser : isPhysical src = false := decide_eq_false (by omega)
    obtain ⟨entry, hfound, hne, hlow, hnot⟩ := h.frame 0 (by omega)
    rw [Nat.add_zero] at hfound
    rw [if_neg hzero, if_neg (by rw [huser]; decide), hfound]
    dsimp only
    rw [frameMemory_of_ne hne]
    have hset (c : ℕ) : s.memsetMapped (.mirror (align entry) (src % 0x1000)) v c =
        some (s.writeFrame (align entry) (src % 0x1000) c fun _ => v) :=
      if_pos (decide_eq_true hlow)
    rw [hset, Option.bind_some]
    by_cases hlast : n ≤ 0x1000 - src % 0x1000
    · rw [if_pos hlast]
      exact ⟨_, rfl, (hnot.writeFrame _ _ _).2.1⟩
    · rw [if_neg hlast, if_pos (by omega), add64_of_lt (by omega)]
      have hrest := h.rest (show 0x1000 - src % 0x1000 ≤ n by omega) hnot (src % 0x1000) (0x1000 - src % 0x1000) fun _ => v
      obtain ⟨s', hloop, hmapped⟩ := ih hrest (by omega)
      rw [show (src + (0x1000 - src % 0x1000)) % 0x1000 = 0 by omega] at hloop
      exact ⟨s', hloop, fun a => (hmapped a).trans ((hnot.writeFrame _ _ _).2.1 a)⟩

/-- The bytes behind an address that is not looked up. -/
theorem Kernel.address_chunk {a : ℕ} (hword : a + n ≤ 2 ^ 64) :
    (s.reachable (.address a) n = true ∧ ∀ k < n, (s.load (.address a) k).isSome = true) ↔
      ∀ k < n, (s.reachable (.address (a + k)) 1 && (s.load (.address (a + k)) 0).isSome) = true := by
  have hload (k : ℕ) (hk : k < n) : s.load (.address (a + k)) 0 = s.load (.address a) k := by
    unfold Kernel.load
    dsimp only
    rw [add64_of_lt (show a + k < 2 ^ 64 by omega), add64_of_lt (show a + k + 0 < 2 ^ 64 by omega), Nat.add_zero]
  have hreach (k : ℕ) (hk : k < n) : s.reachable (.address (a + k)) 1 = true ↔
      (isPhysical (add64 a k) = true → s.mapped (add64 a k) = true) := by
    unfold Kernel.reachable
    dsimp only
    rw [decide_eq_true_eq, add64_of_lt (show a + k < 2 ^ 64 by omega)]
    constructor
    · intro h
      have hfirst := h 0 (by decide)
      rwa [add64_of_lt (show a + k + 0 < 2 ^ 64 by omega), Nat.add_zero] at hfirst
    · intro h j hj
      obtain rfl : j = 0 := by omega
      rwa [add64_of_lt (show a + k + 0 < 2 ^ 64 by omega), Nat.add_zero]
  constructor
  · rintro ⟨hall, hloads⟩ k hk
    rw [Bool.and_eq_true, hreach k hk, hload k hk]
    exact ⟨of_decide_eq_true hall k hk, hloads k hk⟩
  · intro h
    refine ⟨decide_eq_true fun k hk => ?_, fun k hk => ?_⟩
    · exact (hreach k hk).mp (Bool.and_eq_true _ _ ▸ h k hk).1
    · rw [← hload k hk]
      exact (Bool.and_eq_true _ _ ▸ h k hk).2

/-- Addresses of one page have one entry. -/
theorem Kernel.lookup_congr {a b : ℕ} (h : a / 0x1000 = b / 0x1000) : s.lookup a cr3 = s.lookup b cr3 := by
  have hphys : isPhysical a = isPhysical b := by
    unfold isPhysical
    rw [decide_eq_decide]
    omega
  unfold Kernel.lookup
  rw [hphys, Machine.getPage_congr h]

/-- The bytes of a page that a `memcpy` reads. -/
theorem Kernel.source_chunk {a : ℕ} (hword : a < 2 ^ 64) (hpage : a % 0x1000 + n ≤ 0x1000) (hn : 0 < n) :
    (s.reachable (s.pointer s.machine.activePage a) n = true ∧
        ∀ k < n, (s.load (s.pointer s.machine.activePage a) k).isSome = true) ↔
      ∀ k < n, s.readable (a + k) = true := by
  have hlookup (k : ℕ) (hk : k < n) : s.lookup (a + k) s.machine.activePage = s.lookup a s.machine.activePage :=
    Kernel.lookup_congr (by omega)
  unfold Kernel.readable
  cases hfound : s.lookup a s.machine.activePage with
  | none =>
    have hpointer (k : ℕ) (hk : k < n) : s.pointer s.machine.activePage (a + k) = .address (a + k) := by
      unfold Kernel.pointer
      rw [hlookup k hk, hfound]
    rw [show s.pointer s.machine.activePage a = .address a from hpointer 0 hn, Kernel.address_chunk (by omega)]
    refine forall₂_congr fun k hk => ?_
    rw [hpointer k hk]
  | some entry =>
    have hpointer (k : ℕ) (hk : k < n) :
        s.pointer s.machine.activePage (a + k) = frameMemory (align entry) (a % 0x1000 + k) := by
      unfold Kernel.pointer
      rw [hlookup k hk, hfound]
      dsimp only
      congr 1
      omega
    have hfirst : s.pointer s.machine.activePage a = frameMemory (align entry) (a % 0x1000) := hpointer 0 hn
    rw [hfirst]
    by_cases hzero : align entry = 0
    · have hnull (offs : ℕ) : frameMemory (align entry) offs = .address offs := if_pos hzero
      rw [hnull, Kernel.address_chunk (by omega)]
      refine forall₂_congr fun k hk => ?_
      rw [hpointer k hk, hnull]
    · rw [frameMemory_of_ne hzero]
      constructor
      · rintro ⟨hreach, -⟩ k hk
        rw [hpointer k hk, frameMemory_of_ne hzero]
        exact Bool.and_eq_true_iff.mpr ⟨hreach, rfl⟩
      · intro h
        have hreach := h 0 hn
        rw [hpointer 0 hn, frameMemory_of_ne hzero] at hreach
        exact ⟨(Bool.and_eq_true_iff.mp hreach).1, fun _ _ => rfl⟩

/-- A round of the copy to a user page that is mapped. -/
theorem Kernel.memcpyDpgsMappedLoop_user {entry offs2 fuel : ℕ} (hn : n ≠ 0) (huser : isPhysical dest = false)
    (hfound : s.lookup dest cr3 = some entry) (hne : align entry ≠ 0) :
    Kernel.memcpyDpgsMappedLoop cr3 s.machine.activePage (fuel + 1) s dest src (src % 0x1000) offs2 n =
      let maxcpy := if src % 0x1000 < offs2 then 0x1000 - offs2 else 0x1000 - src % 0x1000
      (s.memcpyMapped (.mirror (align entry) offs2) (s.pointer s.machine.activePage src)
        (if maxcpy < n then maxcpy else n)).bind fun s' =>
          if n ≤ maxcpy then some s'
          else
            Kernel.memcpyDpgsMappedLoop cr3 s.machine.activePage fuel s' (add64 dest maxcpy) (add64 src maxcpy)
              (add64 src maxcpy % 0x1000) (add64 dest maxcpy % 0x1000) (n - maxcpy) := by
  rw [Kernel.memcpyDpgsMappedLoop, if_neg hn, if_neg (by rw [huser, Bool.and_false]; decide), hfound]
  dsimp only
  rw [if_pos (Or.inr (by simp)), frameMemory_of_ne hne]
  simp only [sub_align]
  rfl

/-- `memcpy_dpgs` to user bytes with frames of their own faults exactly when a byte of its source cannot be read. -/
theorem Kernel.Apart.memcpy {fuel : ℕ} (h : s.Apart cr3 dest n) (hfuel : n ≤ fuel) (hsrc : src < 2 ^ 64) :
    ((∀ k < n, s.readable (add64 src k) = true) →
      ∃ s', Kernel.memcpyDpgsMappedLoop cr3 s.machine.activePage fuel s dest src (src % 0x1000) (dest % 0x1000) n = some s' ∧
        ∀ a, s'.mapped a = s.mapped a) ∧
    ((∃ k < n, s.readable (add64 src k) = false) →
      Kernel.memcpyDpgsMappedLoop cr3 s.machine.activePage fuel s dest src (src % 0x1000) (dest % 0x1000) n = none) := by
  induction fuel generalizing s src dest n with
  | zero =>
    obtain rfl : n = 0 := by omega
    exact ⟨fun _ => ⟨s, rfl, fun _ => rfl⟩, by rintro ⟨k, hk, -⟩; exact absurd hk (Nat.not_lt_zero k)⟩
  | succ fuel ih =>
    by_cases hzero : n = 0
    · rw [Kernel.memcpyDpgsMappedLoop, if_pos hzero]
      exact ⟨fun _ => ⟨s, rfl, fun _ => rfl⟩, by rintro ⟨k, hk, -⟩; omega⟩
    have hbelow := h.below
    have hstart : kernelStart = 0xFFFF000000000000 := rfl
    have hoffs : src % 0x1000 < 0x1000 := Nat.mod_lt _ (by decide)
    have hoffs2 : dest % 0x1000 < 0x1000 := Nat.mod_lt _ (by decide)
    have huser : isPhysical dest = false := decide_eq_false (by omega)
    obtain ⟨entry, hfound, hne, hlow, hnot⟩ := h.frame 0 (by omega)
    rw [Nat.add_zero] at hfound
    rw [Kernel.memcpyDpgsMappedLoop_user hzero huser hfound hne]
    dsimp only
    generalize hmax : (if src % 0x1000 < dest % 0x1000 then 0x1000 - dest % 0x1000 else 0x1000 - src % 0x1000) = maxcpy
    obtain ⟨c, hc⟩ : ∃ c, c = if maxcpy < n then maxcpy else n := ⟨_, rfl⟩
    have hbounds : 0 < c ∧ c ≤ n ∧ src % 0x1000 + c ≤ 0x1000 := by
      split at hmax <;> split at hc <;> omega
    obtain ⟨hpos, hcn, hpage⟩ := hbounds
    have hchunk := Kernel.source_chunk (s := s) hsrc hpage hpos
    rw [← hc]
    have hread (k : ℕ) (hk : k < c) : add64 src k = src + k := add64_of_lt (by omega)
    by_cases hall : ∀ k < c, s.readable (src + k) = true
    · -- the first piece is copied
      obtain ⟨hreach, hloads⟩ := hchunk.mpr hall
      have hcopy : s.memcpyMapped (.mirror (align entry) (dest % 0x1000)) (s.pointer s.machine.activePage src) c =
          some (s.writeFrame (align entry) (dest % 0x1000) c fun k => (s.load (s.pointer s.machine.activePage src) k).getD 0) := by
        have hdest : s.reachable (.mirror (align entry) (dest % 0x1000)) c = true := decide_eq_true hlow
        unfold Kernel.memcpyMapped Kernel.memcpy
        rw [if_pos (Bool.and_eq_true_iff.mpr ⟨hreach, hdest⟩), if_pos hloads]
        rfl
      rw [hcopy, Option.bind_some]
      by_cases hlast : n ≤ maxcpy
      · rw [if_pos hlast]
        obtain rfl : c = n := by
          rw [if_neg (by omega)] at hc
          exact hc
        refine ⟨fun _ => ⟨_, rfl, (hnot.writeFrame _ _ _).2.1⟩, ?_⟩
        rintro ⟨k, hk, hbad⟩
        rw [hread k hk, hall k hk] at hbad
        exact absurd hbad (by decide)
      · rw [if_neg hlast]
        rw [if_pos (by omega)] at hc
        subst hc
        have hrest := h.rest hcn hnot (dest % 0x1000) c fun k => (s.load (s.pointer s.machine.activePage src) k).getD 0
        have hnext : add64 dest c = dest + c := add64_of_lt (by omega)
        have hsame := hnot.writeFrame (dest % 0x1000) c fun k => (s.load (s.pointer s.machine.activePage src) k).getD 0
        obtain ⟨hgood, hbad⟩ := ih hrest (by omega) (add64_lt src c)
        have hlater (k : ℕ) : add64 (add64 src c) k = add64 src (c + k) := by
          unfold add64
          omega
        simp only [hsame.2.2, hlater] at hgood hbad
        rw [hnext]
        refine ⟨fun hreadable => ?_, ?_⟩
        · obtain ⟨s', hloop, hmapped⟩ := hgood fun k hk => hreadable (c + k) (by omega)
          exact ⟨s', hloop, fun a => (hmapped a).trans (hsame.2.1 a)⟩
        · rintro ⟨k, hk, hfalse⟩
          refine hbad ⟨k - c, ?_, ?_⟩
          · by_contra hlt
            rw [hread k (by omega), hall k (by omega)] at hfalse
            exact absurd hfalse (by decide)
          · rw [Nat.add_sub_cancel' (by
              by_contra hlt
              rw [hread k (by omega), hall k (by omega)] at hfalse
              exact absurd hfalse (by decide))]
            exact hfalse
    · have hnone : s.memcpyMapped (.mirror (align entry) (dest % 0x1000)) (s.pointer s.machine.activePage src) c = none := by
        unfold Kernel.memcpyMapped Kernel.memcpy
        split
        · rename_i hreach
          rw [if_neg fun hloads => hall (hchunk.mp ⟨(Bool.and_eq_true_iff.mp hreach).1, hloads⟩)]
        · rfl
      rw [hnone, Option.bind_none]
      refine ⟨fun hreadable => absurd (fun k hk => ?_) hall, fun _ => rfl⟩
      rw [← hread k hk]
      exact hreadable k (by omega)

/-- `memset_dpgs` fills user bytes with frames of their own. -/
theorem Kernel.Apart.memsetDpgs (h : s.Apart cr3 src n) (v : ℕ) :
    ∃ s', s.memsetDpgsMapped cr3 src v n = some s' ∧ ∀ a, s'.mapped a = s.mapped a := by
  unfold Kernel.memsetDpgsMapped
  rw [sub_align]
  exact h.memset (Nat.le_refl _)

/-- `memcpy_dpgs` from the active space fills user bytes with frames of their own when its source can be read. -/
theorem Kernel.Apart.memcpyDpgs (h : s.Apart cr3 dest n) (hsrc : src < 2 ^ 64)
    (hreadable : ∀ k < n, s.readable (add64 src k) = true) :
    ∃ s', s.memcpyDpgsMapped cr3 s.machine.activePage dest src n = some s' ∧ ∀ a, s'.mapped a = s.mapped a := by
  unfold Kernel.memcpyDpgsMapped
  rw [sub_align, sub_align]
  exact (h.memcpy (Nat.le_refl _) hsrc).1 hreadable

end Loops

end Cthulhu
