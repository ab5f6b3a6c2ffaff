import Cthulhu.Loader.Transfer

/-!
# What the copies leave in memory

Over pages that own their frames, `memcpy_dpgs` from a kernel address and `memset_dpgs` write
exactly the bytes of their range: such frames hold no table, and no two pages share one.
-/

namespace Cthulhu

open Lib

/-- The byte of an owned page. -/
def Kernel.frameByte (s : Kernel) (cr3 va : ℕ) : ℕ :=
  readByte (s.machine.memory (pageFrame cr3 s.machine va)) (va % 0x1000)

/-- The range was filled with the source, and nothing else changed that an owned page holds. -/
structure Filled (roots : Finset ℕ) (cr3 dest n : ℕ) (source : ℕ → ℕ) (s s' : Kernel) : Prop where
  ready : Mappable roots s'.machine
  bytes : s'.bytes = s.bytes
  entries : ∀ va, leafEntry s'.machine.memory cr3 va = leafEntry s.machine.memory cr3 va
  owned : ∀ va, Owned roots cr3 s.machine va → Owned roots cr3 s'.machine va
  inside : ∀ k < n, s'.frameByte cr3 (dest + k) = source k % 256
  outside : ∀ va < 2 ^ 48, Owned roots cr3 s.machine va → ¬ (dest ≤ va ∧ va < dest + n) →
    s'.frameByte cr3 va = s.frameByte cr3 va

section Page

variable {roots : Finset ℕ} {cr3 va : ℕ} {s s' s'' : Kernel}

/-- What an address space has at an owned page. -/
theorem Owned.userByte (h : Owned roots cr3 s.machine va) (hva : pmlIndex va ≠ 510) :
    s.userByte cr3 va = some (s.frameByte cr3 va) := by
  have hentry := s.machine.pageEntry_eq cr3 hva
  unfold Kernel.userByte
  dsimp only
  rw [hentry, if_pos h.present, frameOf_of_lt h.low]
  rfl

/-- An owned page of the user half is visible. -/
theorem Owned.visible (h : Owned roots cr3 s.machine va) (hva : va < userEnd) : s.Visible cr3 va :=
  Or.inr ⟨hva, h.present, h.low⟩

/-- Where the byte of an owned page is. -/
theorem Owned.place_eq (h : Owned roots cr3 s.machine va) (hva : isPhysical va = false) :
    s.place cr3 va = .frame (pageFrame cr3 s.machine va) (va % 0x1000) := by
  unfold Kernel.place pageFrame
  rw [if_neg (by rw [hva]; decide), frameOf_of_lt h.low]

/-- Owned pages hold no table. -/
theorem Owned.offTables {dest n : ℕ} (hcr3 : align cr3 ∈ roots) (hend : dest + n ≤ userEnd)
    (howned : ∀ k < n, Owned roots cr3 s.machine (dest + k)) :
    OffTables roots s (fun k => s.place cr3 (dest + k)) n := by
  intro k hk f o hplace
  dsimp only at hplace
  rw [(howned k hk).place_eq (isPhysical_of_lt (by omega)), Place.frame.injEq] at hplace
  rw [← hplace.1]
  exact (howned k hk).not_isTable hcr3

/-- Owned pages with nonzero frames can be reached. -/
theorem Owned.reach {dest n : ℕ} (hend : dest + n ≤ userEnd)
    (howned : ∀ k < n, Owned roots cr3 s.machine (dest + k)) (hframe : ∀ k < n, pageFrame cr3 s.machine (dest + k) ≠ 0) :
    Reach s cr3 dest n := by
  refine ⟨fun k hk => (howned k hk).visible (by omega), fun k hk o hplace => hframe k hk ?_⟩
  rw [(howned k hk).place_eq (isPhysical_of_lt (by omega)), Place.frame.injEq] at hplace
  exact hplace.1

/-- Bytes put in owned pages fill their range. -/
theorem Put.filled {dest n : ℕ} {source : ℕ → ℕ} (hput : Put (fun k => s.place cr3 (dest + k)) n source s s')
    (h : Mappable roots s.machine) (hcr3 : align cr3 ∈ roots) (hend : dest + n ≤ userEnd)
    (howned : ∀ k < n, Owned roots cr3 s.machine (dest + k)) : Filled roots cr3 dest n source s s' := by
  have hoff := Owned.offTables hcr3 hend howned
  have huser : userEnd = 2 ^ 47 := rfl
  have hsame (i : ℕ) (hi : i < n) (j : ℕ) (hj : j < n) (heq : s.place cr3 (dest + i) = s.place cr3 (dest + j)) :
      source i % 256 = source j % 256 := by
    rw [(howned i hi).place_eq (isPhysical_of_lt (by omega)), (howned j hj).place_eq (isPhysical_of_lt (by omega)),
      Place.frame.injEq] at heq
    have hpage := (howned i hi).samePage (howned j hj) hcr3 h.tree heq.1
    unfold SamePage at hpage
    obtain rfl : i = j := by omega
    rfl
  have hplace (k : ℕ) (hk : k < n) :
      s.place cr3 (dest + k) = .frame (pageFrame cr3 s.machine (dest + k)) ((dest + k) % 0x1000) :=
    (howned k hk).place_eq (isPhysical_of_lt (by omega))
  have hentries := hput.leafEntry hoff hcr3
  have hframe (va : ℕ) : pageFrame cr3 s'.machine va = pageFrame cr3 s.machine va := by
    unfold pageFrame
    rw [hentries]
  have hpool : s'.machine.framePool = s.machine.framePool := by rw [hput.config]
  obtain ⟨hready, hrefs⟩ := h.agree hpool fun T hT => hput.table hoff hT
  refine ⟨hready, ?_, hentries, fun va hva => ?_, fun k hk => ?_, fun va hva hvaOwned hout => ?_⟩
  · funext a
    refine hput.bytes a fun k hk => ?_
    rw [hplace k hk]
    simp
  · exact hva.next (by rw [hentries]; exact hva.present) (by rw [hentries]; exact hva.low) (hframe va) (hrefs _)
  · have hbyte := hput.exact hsame hk
    rw [hplace k hk] at hbyte
    unfold Kernel.frameByte
    rw [hframe]
    exact hbyte
  · unfold Kernel.frameByte
    rw [hframe]
    refine hput.outside (.frame (pageFrame cr3 s.machine va) (va % 0x1000)) fun k hk heq => hout ?_
    rw [hplace k hk, Place.frame.injEq] at heq
    have hsame := hvaOwned.samePage (howned k hk) hcr3 h.tree heq.1.symm
    unfold SamePage at hsame
    omega

end Page

section Loops

variable {roots : Finset ℕ} {cr3 : ℕ} {s : Kernel}

/-- `memset_dpgs` fills its range. -/
theorem Mappable.memsetDpgs (h : Mappable roots s.machine) (hcr3 : align cr3 ∈ roots) (v : ℕ) {src n : ℕ}
    (hend : src + n ≤ userEnd) (howned : ∀ j < n, Owned roots cr3 s.machine (src + j))
    (hframe : ∀ j < n, pageFrame cr3 s.machine (src + j) ≠ 0) :
    ∃ s', s.memsetDpgs cr3 src v n = some s' ∧ Filled roots cr3 src n (fun _ => v) s s' := by
  obtain ⟨s', hset, hput⟩ := Kernel.memsetDpgs_put hcr3 v hend (Owned.reach hend howned hframe)
    (Owned.offTables hcr3 hend howned)
  exact ⟨s', hset, hput.filled h hcr3 hend howned⟩

/-- `memcpy_dpgs` fills its range with the bytes at kernel addresses. -/
theorem Mappable.memcpyDpgs (h : Mappable roots s.machine) (hcr3 : align cr3 ∈ roots) (cr3b : ℕ) {dest src n : ℕ}
    (hend : dest + n ≤ userEnd) (hsrc : isPhysical src = true) (hword : src + n ≤ 2 ^ 64)
    (howned : ∀ j < n, Owned roots cr3 s.machine (dest + j)) (hframe : ∀ j < n, pageFrame cr3 s.machine (dest + j) ≠ 0) :
    ∃ s', s.memcpyDpgs cr3 cr3b dest src n = some s' ∧ Filled roots cr3 dest n (fun k => s.bytes (src + k)) s s' := by
  have hdest (k : ℕ) (hk : k < n) := (howned k hk).place_eq (isPhysical_of_lt (show dest + k < userEnd by omega))
  have hsource (k : ℕ) : s.place cr3b (src + k) = .kernel (src + k) := if_pos (isPhysical_add hsrc)
  have hcopy : Copyable roots s cr3 cr3b dest src n := by
    refine ⟨fun _ => hcr3, fun hva => absurd (hva.symm.trans hsrc) (by decide), Owned.reach hend howned hframe,
      ⟨fun k hk => Or.inl ⟨isPhysical_add hsrc, by omega⟩, fun k _ o => ?_⟩, Owned.offTables hcr3 hend howned,
      fun i hi j _ => ?_⟩
    · rw [hsource]
      simp
    · rw [hdest i hi, hsource]
      simp
  obtain ⟨s', hloop, hput⟩ := hcopy.memcpyDpgs fun k hk hboth => by
    rw [isPhysical_of_lt (show dest + k < userEnd by omega)] at hboth
    exact absurd hboth.2 (by decide)
  refine ⟨s', hloop, (hput.congr (fun _ _ => rfl) fun k hk => ?_).filled h hcr3 hend howned⟩
  rw [hsource]
  exact (Nat.mod_mod _ _).symm

end Loops

end Cthulhu
