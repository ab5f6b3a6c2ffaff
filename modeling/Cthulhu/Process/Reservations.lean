import Cthulhu.Process.RoundTrip
import Cthulhu.Syscalls.Classify

/-!
# Pages reserved on demand

`allocate_mem` writes the entry of a reserved page from a local `page_t` of which it sets four
bits; the others are what the stack held. Two of its readers, `page_fault` and
`check_mem_state`, look at these bits in a different order. Two calls that differ only in what the
stack held are compared here.
-/

namespace Cthulhu

open Lib

/-- The fields of the entry that `allocate_mem` sets: present, valid, on demand, executable. -/
def reservedBits : List ℕ := [0, 1, 3, 4]

/-- A bit that `allocate_mem` does not set is that of the stack. -/
theorem bit_aodMarker {k : ℕ} (hk : k ∉ reservedBits) (stale : ℕ) (exec : Bool) :
    bit (aodMarker stale exec) k = bit stale k := by
  simp only [reservedBits, List.mem_cons, List.not_mem_nil, or_false, not_or] at hk
  obtain ⟨h0, h1, h3, h4⟩ := hk
  unfold aodMarker
  rw [bit_setBit_of_ne _ _ h4, bit_setBit_of_ne _ _ h3, bit_setBit_of_ne _ _ h1, bit_setBit_of_ne _ _ h0]

/-- Two stack contents give one entry exactly when they agree on the bits that are not set. -/
theorem aodMarker_eq_iff (stale stale' : ℕ) (exec : Bool) :
    aodMarker stale exec = aodMarker stale' exec ↔ ∀ k ∉ reservedBits, bit stale k = bit stale' k := by
  constructor
  · intro heq k hk
    rw [← bit_aodMarker hk stale exec, heq, bit_aodMarker hk]
  · intro hagree
    refine bit_ext fun k => ?_
    by_cases hk : k ∈ reservedBits
    · have hset (w : ℕ) : bit (aodMarker w exec) 4 = exec ∧ bit (aodMarker w exec) 0 = false :=
        ⟨bit_setBit_self _ _ _, present_aodMarker w exec⟩
      simp only [reservedBits, List.mem_cons, List.not_mem_nil, or_false] at hk
      rcases hk with rfl | rfl | rfl | rfl
      · rw [(hset stale).2, (hset stale').2]
      · rw [(aodMarker_bits stale exec).1, (aodMarker_bits stale' exec).1]
      · rw [(aodMarker_bits stale exec).2, (aodMarker_bits stale' exec).2]
      · rw [(hset stale).1, (hset stale').1]
    · rw [bit_aodMarker hk, bit_aodMarker hk, hagree k hk]

/-- A reserved page is seen as one on demand or as swapped out, by a bit of the stack. -/
theorem entryClass_aodMarker (stale : ℕ) (exec : Bool) :
    entryClass (aodMarker stale exec) = if bit stale 2 then .swapped else .onDemand := by
  obtain ⟨hvalid, hdemand⟩ := aodMarker_bits stale exec
  have hswapped : bit (aodMarker stale exec) 2 = bit stale 2 := bit_aodMarker (by decide) stale exec
  unfold entryClass
  rw [present_aodMarker, hvalid, hdemand, hswapped]
  rfl

section Calls

variable (m : Machine) (ainfo : AllocInfo) (kernel readonly : Bool) (cr3 : ℕ)

/-- The call reserves the page, and leaves the given machine at the end of that round. -/
def Machine.ReservedAt (stale : ℕ → ℕ) (va : ℕ) (m' : Machine) : Prop :=
  ∃ done rest info, Machine.allocatePages ainfo.start ainfo.amount = done ++ va :: rest ∧
    run (Machine.allocateMemPage kernel readonly cr3 stale) ((ainfo.aligned, m), false) (done ++ [va]) =
      ((info, m'), false)

/-- Both readers see the page as reserved on demand when its address space is active. -/
def Machine.ReadAsDemand (va : ℕ) : Prop :=
  let active := { m with activePage := cr3 }
  active.pageClass va = .onDemand ∧
    ∀ errcode stale, bit errcode 0 = false → active.pageFault va errcode stale =
      (some true, (active.allocateMem (Machine.demandRequest va) false false cr3 stale).2)

/-- Two calls that differ in the stack only write the same entries, and both readers see every page
that is reserved as one on demand. -/
structure Machine.Unambiguous (stale stale' : ℕ → ℕ) : Prop where
  entry : ∀ va m₁ m₂, m.ReservedAt ainfo kernel readonly cr3 stale va m₁ →
    m.ReservedAt ainfo kernel readonly cr3 stale' va m₂ → m₁.pageEntry va cr3 = m₂.pageEntry va cr3
  first : ∀ va m₁, m.ReservedAt ainfo kernel readonly cr3 stale va m₁ → m₁.ReadAsDemand cr3 va
  second : ∀ va m₂, m.ReservedAt ainfo kernel readonly cr3 stale' va m₂ → m₂.ReadAsDemand cr3 va

/-- For every page that is reserved, the stack held the same bits where the entry is not set, and the
bit that means a swapped page was clear. -/
structure Machine.StackAgrees (stale stale' : ℕ → ℕ) : Prop where
  same : ∀ va m₁ m₂, m.ReservedAt ainfo kernel readonly cr3 stale va m₁ →
    m.ReservedAt ainfo kernel readonly cr3 stale' va m₂ → ∀ k ∉ reservedBits, bit (stale va) k = bit (stale' va) k
  first : ∀ va m₁, m.ReservedAt ainfo kernel readonly cr3 stale va m₁ → bit (stale va) 2 = false
  second : ∀ va m₂, m.ReservedAt ainfo kernel readonly cr3 stale' va m₂ → bit (stale' va) 2 = false

variable {m ainfo cr3} {roots : Finset ℕ}

/-- The next request is as much executable. -/
theorem AllocInfo.next_exec (info : AllocInfo) : info.next.exec = info.exec := by
  simp only [AllocInfo.next]

/-- The rounds of a reservation keep the tables apart, and the request as far as it decides the entry. -/
theorem Growable.reserve_invariant (h : Growable roots m) (hcr3 : align cr3 ∈ roots) (haod : ainfo.aod = true)
    (stale : ℕ → ℕ) {pages : List ℕ} (hout : ∀ a ∈ pages, pmlIndex a ≠ 510) :
    let st := run (Machine.allocateMemPage kernel readonly cr3 stale) ((ainfo.aligned, m), false) pages
    Growable roots st.1.2 ∧ st.1.1.aod = true ∧ st.1.1.exec = ainfo.exec := by
  have hstart : ainfo.aligned.aod = true ∧ ainfo.aligned.exec = ainfo.exec := ⟨haod, rfl⟩
  refine ((Guarded.trivial (Machine.allocateMemPage kernel readonly cr3 stale) ((ainfo.aligned, m), false)
    pages).and_mem hout).invariant
    (fun st => Growable roots st.1.2 ∧ st.1.1.aod = true ∧ st.1.1.exec = ainfo.exec) ?_ ⟨h, hstart⟩
  rintro ⟨⟨info, a⟩, stopped⟩ va ⟨hgrowable, hdemand, hexec⟩ ⟨hva, -⟩
  cases stopped with
  | true => exact ⟨hgrowable, hdemand, hexec⟩
  | false =>
    obtain ⟨b, hb, -, ⟨hstop, -⟩ | ⟨hgo, -⟩⟩ := Growable.reservePage hgrowable hcr3 hdemand hva kernel readonly stale
    · rw [hstop]
      exact ⟨hb, hdemand, hexec⟩
    · rw [hgo]
      exact ⟨hb, (info.next_aod).trans hdemand, (info.next_exec).trans hexec⟩

variable {kernel readonly} {stale stale' : ℕ → ℕ}

/-- The entry of a page right after it is reserved. -/
theorem Growable.reserved_entry (h : Growable roots m) (hcr3 : align cr3 ∈ roots) (haod : ainfo.aod = true)
    (hout : ∀ a ∈ Machine.allocatePages ainfo.start ainfo.amount, pmlIndex a ≠ 510) {va : ℕ} {m' : Machine}
    (hreserved : m.ReservedAt ainfo kernel readonly cr3 stale va m') :
    pmlIndex va ≠ 510 ∧ leafEntry m'.memory cr3 va = aodMarker (stale va) ainfo.exec := by
  obtain ⟨done, rest, info, hpages, hrun⟩ := hreserved
  rw [hpages] at hout
  have hva : pmlIndex va ≠ 510 := hout va (by simp)
  have hdone : ∀ a ∈ done, pmlIndex a ≠ 510 := fun a ha => hout a (List.mem_append_left _ ha)
  have hbefore := h.reserve_invariant kernel readonly hcr3 haod stale hdone
  have hlast : run (Machine.allocateMemPage kernel readonly cr3 stale) ((ainfo.aligned, m), false) (done ++ [va]) =
      Machine.allocateMemPage kernel readonly cr3 stale
        (run (Machine.allocateMemPage kernel readonly cr3 stale) ((ainfo.aligned, m), false) done) va :=
    List.foldl_append
  rw [hlast] at hrun
  generalize run (Machine.allocateMemPage kernel readonly cr3 stale) ((ainfo.aligned, m), false) done = st
    at hbefore hrun
  obtain ⟨⟨before, a⟩, stopped⟩ := st
  obtain ⟨hgrowable, hdemand, hexec⟩ := hbefore
  refine ⟨hva, ?_⟩
  cases stopped with
  | true => exact Bool.noConfusion (show true = false from congrArg Prod.snd hrun)
  | false =>
    obtain ⟨b, -, -, ⟨hstop, -⟩ | ⟨hgo, -, hentry⟩⟩ :=
      Growable.reservePage hgrowable hcr3 hdemand hva kernel readonly stale
    · rw [hstop] at hrun
      exact Bool.noConfusion (show true = false from congrArg Prod.snd hrun)
    · rw [hgo] at hrun
      obtain rfl : b = m' := congrArg (fun st => st.1.2) hrun
      rw [hentry]
      exact congrArg (aodMarker (stale va)) hexec

/-- A page that was just reserved is read as one on demand by both exactly when the stack's bit for
swapped pages was clear. -/
theorem Growable.readAsDemand_iff (h : Growable roots m) (hcr3 : align cr3 ∈ roots) (haod : ainfo.aod = true)
    (hout : ∀ a ∈ Machine.allocatePages ainfo.start ainfo.amount, pmlIndex a ≠ 510) {va : ℕ} {m' : Machine}
    (hreserved : m.ReservedAt ainfo kernel readonly cr3 stale va m') :
    m'.ReadAsDemand cr3 va ↔ bit (stale va) 2 = false := by
  obtain ⟨hva, hentry⟩ := h.reserved_entry hcr3 haod hout hreserved
  have hactive : leafEntry { m' with activePage := cr3 }.memory cr3 va = aodMarker (stale va) ainfo.exec := hentry
  obtain ⟨hvalid, hdemand⟩ := aodMarker_bits (stale va) ainfo.exec
  have hclass : Machine.pageClass { m' with activePage := cr3 } va =
      if bit (stale va) 2 then .swapped else .onDemand := by
    rw [Machine.pageClass_eq, Machine.pageEntry_eq _ _ hva, hactive, entryClass_aodMarker]
  unfold Machine.ReadAsDemand
  dsimp only
  rw [hclass]
  constructor
  · rintro ⟨hread, -⟩
    cases hbit : bit (stale va) 2 with
    | false => rfl
    | true =>
      rw [hbit] at hread
      cases hread
  · intro hclear
    rw [hclear]
    refine ⟨rfl, fun errcode stale herr => ?_⟩
    rw [Machine.pageFault_absent _ hva stale herr, hactive, hvalid, hdemand]
    rfl

/-- When reservations are unambiguous, for every two contents of the stack: exactly when these agree on
the bits that `allocate_mem` does not set, with the bit of swapped pages clear. -/
theorem reservations_unambiguous_iff (m : Machine) (roots : Finset ℕ) (ainfo : AllocInfo) (kernel readonly : Bool)
    (cr3 : ℕ) (stale stale' : ℕ → ℕ) (htables : Growable roots m) (hcr3 : align cr3 ∈ roots)
    (haod : ainfo.aod = true)
    (hout : ∀ a ∈ Machine.allocatePages ainfo.start ainfo.amount, pmlIndex a ≠ 510) :
    m.Unambiguous ainfo kernel readonly cr3 stale stale' ↔ m.StackAgrees ainfo kernel readonly cr3 stale stale' := by
  have hentry (w : ℕ → ℕ) {va : ℕ} {m' : Machine} (hreserved : m.ReservedAt ainfo kernel readonly cr3 w va m') :
      m'.pageEntry va cr3 = aodMarker (w va) ainfo.exec := by
    obtain ⟨hva, hleaf⟩ := htables.reserved_entry hcr3 haod hout hreserved
    rw [m'.pageEntry_eq cr3 hva, hleaf]
  constructor
  · rintro ⟨hsame, hfirst, hsecond⟩
    refine ⟨fun va m₁ m₂ h₁ h₂ => ?_, fun va m₁ h₁ => ?_, fun va m₂ h₂ => ?_⟩
    · have heq := hsame va m₁ m₂ h₁ h₂
      rwa [hentry stale h₁, hentry stale' h₂, aodMarker_eq_iff] at heq
    · exact (htables.readAsDemand_iff hcr3 haod hout h₁).mp (hfirst va m₁ h₁)
    · exact (htables.readAsDemand_iff hcr3 haod hout h₂).mp (hsecond va m₂ h₂)
  · rintro ⟨hsame, hfirst, hsecond⟩
    refine ⟨fun va m₁ m₂ h₁ h₂ => ?_, fun va m₁ h₁ => ?_, fun va m₂ h₂ => ?_⟩
    · rw [hentry stale h₁, hentry stale' h₂, aodMarker_eq_iff]
      exact hsame va m₁ m₂ h₁ h₂
    · exact (htables.readAsDemand_iff hcr3 haod hout h₁).mpr (hfirst va m₁ h₁)
    · exact (htables.readAsDemand_iff hcr3 haod hout h₂).mpr (hsecond va m₂ h₂)

end Calls

/-- A request for one page of data on demand. -/
def onePageRequest : AllocInfo where
  start := 0x400000
  amount := 0x1000
  exec := false
  finished := false
  aod := true

/-- Two stacks that differ in every bit that is set give one entry, read as on demand. -/
theorem reservations_unambiguous_bits :
    blankMachine.Unambiguous onePageRequest false false 0x100000 (fun _ => 0b100000) fun _ => 0b111011 := by
  refine (reservations_unambiguous_iff blankMachine {0x100000} onePageRequest false false 0x100000 _ _
    (blankMachine_oneReference.growable (by simp [blankMachine])) (by decide) rfl (by decide)).mpr ⟨?_, ?_, ?_⟩
  · intro _ _ _ _ _ k hk
    have hlow : ∀ k < 6, k ∉ reservedBits → bit 0b100000 k = bit 0b111011 k := by decide
    by_cases hlt : k < 6
    · exact hlow k hlt hk
    · have hlarge : 2 ^ 6 ≤ 2 ^ k := Nat.pow_le_pow_right (by decide) (by omega)
      unfold bit
      rw [Nat.div_eq_of_lt (by omega), Nat.div_eq_of_lt (by omega)]
  · exact fun _ _ _ => rfl
  · exact fun _ _ _ => rfl

/-- With a four on the stack, the reserved page is taken for a swapped one. -/
theorem reservation_ambiguous :
    ¬ blankMachine.Unambiguous onePageRequest false false 0x100000 (fun _ => 0) fun _ => 4 := by
  intro hsame
  have hreserved : blankMachine.ReservedAt onePageRequest false false 0x100000 (fun _ => 4) 0x400000
      (Machine.allocateMemPage false false 0x100000 (fun _ => 4) ((onePageRequest.aligned, blankMachine), false)
        0x400000).1.2 := ⟨[], [], _, by decide, Prod.ext rfl (by decide +kernel)⟩
  exact absurd (hsame.second _ _ hreserved).1 (by decide +kernel)

end Cthulhu
