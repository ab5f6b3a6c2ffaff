import Cthulhu.Loader.Acquire
import Cthulhu.Loader.Fill
import Cthulhu.Loader.Sections

/-!
# Loading one section

The range of a section is mapped and then filled with its file bytes, or with zeros. Pages that were
mapped before keep their frames and what these hold.
-/

namespace Cthulhu

open Lib

section Range

variable {roots : Finset ℕ} {cr3 : ℕ}

/-- The user half does not hold the mirror slot. -/
theorem pmlIndex_user {va : ℕ} (h : va < userEnd) : pmlIndex va ≠ 510 := by
  have huser : userEnd = 2 ^ 47 := rfl
  unfold pmlIndex
  omega

/-- The pages of a range of the user half belong to it. -/
theorem rangePages_user {start amount : ℕ} (hend : start + amount < userEnd) :
    ∀ p ∈ rangePages start amount, p < userEnd ∧ pmlIndex p ≠ 510 := by
  intro p hp
  obtain ⟨i, -, hlt⟩ := mem_pageRange.mp hp
  have huser := hlt.trans hend
  exact ⟨huser, pmlIndex_user huser⟩

/-- Pages that can be acquired stay so when the memory of owned pages is filled. -/
theorem Filled.spare {dest n va : ℕ} {source : ℕ → ℕ} {s s' : Kernel} (h : Filled roots cr3 dest n source s s')
    (hva : Spare roots cr3 s.machine va) : Spare roots cr3 s'.machine va := by
  rcases hva with habsent | howned
  · left
    rw [h.entries]
    exact habsent
  · exact Or.inr (h.owned va howned)

/-- Mapping more pages keeps what the owned pages hold. -/
theorem Acquired.frameByte {pages : List ℕ} {s s' : Kernel} (h : Acquired roots cr3 pages s.machine s'.machine) {va : ℕ}
    (hva : Owned roots cr3 s.machine va) : s'.frameByte cr3 va = s.frameByte cr3 va := by
  obtain ⟨-, hframe, hwords⟩ := h.kept va hva
  unfold Kernel.frameByte
  rw [hframe, hwords]

end Range

section Section

variable {roots : Finset ℕ} {base pml4 : ℕ} {header : Elf64Ehdr} {st st' : LoadState}

/-- What mapping and filling a section does: its range is acquired, and then filled with its bytes. -/
inductive SectionFilled (roots : Finset ℕ) (base pml4 address : ℕ) (sh : Elf64Shdr) (st st' : LoadState) : Prop
  | nobits (s s' : Kernel) (htype : sh.shType = shtNobits) (hbytes : s.bytes = st.kernel.bytes)
    (hpages : Acquired roots pml4 (rangePages sh.shAddr sh.shSize) st.kernel.machine s.machine)
    (hfilled : Filled roots pml4 sh.shAddr sh.shSize (fun _ => 0) s s') (hareas : st'.areas = st.areas)
    (hkernel : st'.kernel = s'.setField (add64 address 24) (sub64 base sh.shAddr))
  | progbits (s : Kernel) (htype : sh.shType = shtProgbits) (hbytes : s.bytes = st.kernel.bytes)
    (hpages : Acquired roots pml4 (rangePages sh.shAddr sh.shSize) st.kernel.machine s.machine)
    (hfilled : Filled roots pml4 sh.shAddr sh.shSize (fun k => st.kernel.bytes (base + sh.shOffset + k)) s st'.kernel)
    (hareas : st'.areas = st.areas)

/-- A section of the user half that is loaded without an error is mapped and filled. -/
theorem LoadState.fillSection_ok (h : Mappable roots st.kernel.machine) (hpml4 : align pml4 ∈ roots)
    (hspare : ∀ va < userEnd, Spare roots pml4 st.kernel.machine va) {address : ℕ} {sh : Elf64Shdr}
    (hsh : st.kernel.elfSection address = sh) (hend : sh.shAddr + sh.shSize < userEnd) (hbase : isPhysical base = true)
    (hfile : sh.shType = shtProgbits → base + sh.shOffset + sh.shSize ≤ 2 ^ 64) (hsize : sh.shSize ≠ 0)
    (hok : st.fillSection base pml4 address (newArea sh.shAddr (sh.shAddr + sh.shSize)) true = .ok st') :
    SectionFilled roots base pml4 address sh st st' := by
  have huser : userEnd = 2 ^ 47 := rfl
  have hpages := rangePages_user hend
  have harea : sub64 (newArea sh.shAddr (sh.shAddr + sh.shSize)).vaend (newArea sh.shAddr (sh.shAddr + sh.shSize)).vastart =
      sh.shSize := (sub64_of_le (Nat.le_add_right _ _)).trans (Nat.add_sub_cancel_left _ _)
  have hacquired := h.allocate_acquired hpml4 false false (show sh.shAddr + sh.shSize ≤ 2 ^ 64 - 0x1000 by omega)
    (fun p hp => (hpages p hp).2) fun p hp => hspare p (hpages p hp).1
  unfold LoadState.fillSection at hok
  rw [harea, hsh] at hok
  dsimp only [newArea] at hok
  generalize st.kernel.machine.allocate sh.shAddr sh.shSize false false pml4 = r at hacquired hok
  cases htrue : r.1 with
  | false =>
    rw [if_pos htrue] at hok
    exact absurd hok (by simp)
  | true =>
    rw [if_neg (by rw [htrue]; decide)] at hok
    have hpages := hacquired htrue
    have howned (j : ℕ) (hj : j < sh.shSize) : Owned roots pml4 r.2 (sh.shAddr + j) := by
      obtain ⟨p, hp, hsame⟩ := rangePages_cover hj
      exact (hpages.owned p hp).of_samePage hsame
    have hframe (j : ℕ) (hj : j < sh.shSize) : pageFrame pml4 r.2 (sh.shAddr + j) ≠ 0 := by
      obtain ⟨p, hp, hsame⟩ := rangePages_cover hj
      unfold pageFrame
      rw [hsame.leafEntry_eq r.2.memory pml4]
      exact hpages.nonzero p hp
    split at hok
    · rename_i htype
      obtain ⟨s', hset, hfilled⟩ := Mappable.memsetDpgs (s := { st.kernel with machine := r.2 }) hpages.ready hpml4 0
        (Nat.le_of_lt hend) howned hframe
      rw [hset] at hok
      obtain rfl := Except.ok.inj hok
      exact .nobits { st.kernel with machine := r.2 } s' htype rfl hpages hfilled rfl rfl
    · split at hok
      · rename_i htype
        have hword := hfile htype
        have hsrc : isPhysical (base + sh.shOffset) = true := isPhysical_add hbase
        obtain ⟨s', hcopy, hfilled⟩ := Mappable.memcpyDpgs (s := { st.kernel with machine := r.2 }) hpages.ready hpml4
          r.2.activePage (Nat.le_of_lt hend) hsrc hword howned hframe
        rw [add64_of_lt (by omega), hcopy] at hok
        obtain rfl := Except.ok.inj hok
        exact .progbits { st.kernel with machine := r.2 } htype rfl hpages hfilled rfl
      · exact absurd hok (by simp)

end Section

end Cthulhu
