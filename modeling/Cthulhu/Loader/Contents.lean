import Cthulhu.Loader.FillSection
import Cthulhu.Process.AreaRequests

/-!
# What a loaded process holds

The sections are mapped and filled one after the other. A page that two sections share is mapped by
the first and kept by the second, whose bytes go to its own range only; the areas of the process keep
the ranges apart. So when the first loop of `load_elf_stage_one` ends, every section has its contents,
and the second loop finds nothing to do.
-/

namespace Cthulhu

open Lib

section Loop

variable {roots : Finset ℕ} {base pml4 : ℕ} {header : Elf64Ehdr} {s : Kernel} {n : ℕ} {st st' : LoadState}

/-- The pages of the section own their frames and hold its contents: its file bytes in the image that was
loaded, or zeros. -/
structure SectionLoaded (roots : Finset ℕ) (base pml4 : ℕ) (s : Kernel) (sh : Elf64Shdr) (s' : Kernel) : Prop where
  owned : ∀ k < sh.shSize, Owned roots pml4 s'.machine (sh.shAddr + k)
  progbits : sh.shType = shtProgbits → ∀ k < sh.shSize,
    s'.frameByte pml4 (sh.shAddr + k) = s.bytes (base + sh.shOffset + k) % 256
  nobits : sh.shType = shtNobits → ∀ k < sh.shSize, s'.frameByte pml4 (sh.shAddr + k) = 0

/-- The state of the loader after the first sections of the image were loaded. -/
structure LoadedUpTo (roots : Finset ℕ) (base pml4 : ℕ) (header : Elf64Ehdr) (s : Kernel) (n : ℕ) (st : LoadState) :
    Prop where
  ready : Mappable roots st.kernel.machine
  spare : ∀ va < userEnd, Spare roots pml4 st.kernel.machine va
  sorted : SortedAreas st.areas
  image : ImageKept base header n s st.kernel
  areas : ∀ i < n, (s.sectionAt base header i).Loaded →
    newArea (s.sectionAt base header i).shAddr ((s.sectionAt base header i).shAddr + (s.sectionAt base header i).shSize) ∈
      st.areas
  contents : ∀ i < n, (s.sectionAt base header i).Loaded →
    SectionLoaded roots base pml4 s (s.sectionAt base header i) st.kernel

/-- A section keeps its contents when another range is acquired and filled. -/
theorem SectionLoaded.kept {sh : Elf64Shdr} {s₁ s₂ s₃ : Kernel} (h : SectionLoaded roots base pml4 s sh s₁)
    {pages : List ℕ} (hpages : Acquired roots pml4 pages s₁.machine s₂.machine) {dest m : ℕ} {source : ℕ → ℕ}
    (hfilled : Filled roots pml4 dest m source s₂ s₃) (hend : sh.shAddr + sh.shSize < userEnd)
    (hclear : sh.shAddr + sh.shSize ≤ dest ∨ dest + m ≤ sh.shAddr) : SectionLoaded roots base pml4 s sh s₃ := by
  have huser : userEnd = 2 ^ 47 := rfl
  have hown (k : ℕ) (hk : k < sh.shSize) := (hpages.kept _ (h.owned k hk)).1
  have hbyte (k : ℕ) (hk : k < sh.shSize) : s₃.frameByte pml4 (sh.shAddr + k) = s₁.frameByte pml4 (sh.shAddr + k) := by
    rw [hfilled.outside _ (by omega) (hown k hk) (by omega), hpages.frameByte (h.owned k hk)]
  refine ⟨fun k hk => hfilled.owned _ (hown k hk), fun htype k hk => ?_, fun htype k hk => ?_⟩
  · rw [hbyte k hk, h.progbits htype k hk]
  · rw [hbyte k hk, h.nobits htype k hk]

/-- The range of a section that was just filled holds its contents. -/
theorem SectionFilled.loaded {address : ℕ} {sh : Elf64Shdr} (h : SectionFilled roots base pml4 address sh st st')
    (hbytes : sh.shType = shtProgbits → ∀ k < sh.shSize,
      st.kernel.bytes (base + sh.shOffset + k) = s.bytes (base + sh.shOffset + k)) :
    SectionLoaded roots base pml4 s sh st'.kernel := by
  have hcover {s' : Kernel} (hpages : Acquired roots pml4 (rangePages sh.shAddr sh.shSize) st.kernel.machine s'.machine)
      (k : ℕ) (hk : k < sh.shSize) : Owned roots pml4 s'.machine (sh.shAddr + k) := by
    obtain ⟨p, hp, hsame⟩ := rangePages_cover hk
    exact (hpages.owned p hp).of_samePage hsame
  cases h with
  | nobits s₁ s₂ htype hkept hpages hfilled hareas hkernel =>
    rw [hkernel]
    refine ⟨fun k hk => hfilled.owned _ (hcover hpages k hk), fun hprog => ?_, fun _ k hk => hfilled.inside k hk⟩
    rw [htype] at hprog
    exact absurd hprog (by decide)
  | progbits s₁ htype hkept hpages hfilled hareas =>
    refine ⟨fun k hk => hfilled.owned _ (hcover hpages k hk), fun _ k hk => ?_, fun hnobits => ?_⟩
    · rw [hfilled.inside k hk, hbytes htype k hk]
    · rw [htype] at hnobits
      exact absurd hnobits (by decide)

/-- A section that is not to be loaded is passed. -/
theorem LoadedUpTo.passed (h : LoadedUpTo roots base pml4 header s n st)
    (hskip : ¬ (s.sectionAt base header n).Loaded) : LoadedUpTo roots base pml4 header s (n + 1) st := by
  refine ⟨h.ready, h.spare, h.sorted, h.image.next, fun i hi hloaded => ?_, fun i hi hloaded => ?_⟩
  · have hne : i ≠ n := fun heq => hskip (heq ▸ hloaded)
    exact h.areas i (by omega) hloaded
  · have hne : i ≠ n := fun heq => hskip (heq ▸ hloaded)
    exact h.contents i (by omega) hloaded

/-- Loading one more section. -/
theorem LoadedUpTo.filled (h : LoadedUpTo roots base pml4 header s n st) (himage : LoadableImage s base header)
    (hn : n < header.shnum) {sh : Elf64Shdr} (hsh : s.sectionAt base header n = sh) (hloaded : sh.Loaded)
    (haccepted : Accepted st.areas (sh.shAddr, sh.shSize))
    (hfilled : SectionFilled roots base pml4 (sectionAddress base header n) sh
      { st with areas := insertArea st.areas (sh.shAddr, sh.shSize) } st') :
    LoadedUpTo roots base pml4 header s (n + 1) st' := by
  have huser : userEnd = 2 ^ 47 := rfl
  have hend : sh.shAddr + sh.shSize < userEnd := by
    subst hsh
    exact (himage.placed n hn hloaded).2
  have hword : (sh.shAddr, sh.shSize).1 + (sh.shAddr, sh.shSize).2 < 2 ^ 64 := by
    dsimp only
    omega
  have hself := hfilled.loaded (s := s) fun htype k hk => by
    subst hsh
    exact h.image.file himage (Nat.le_of_lt hn) hn hloaded htype hk
  have hsorted := h.sorted.insertArea haccepted hword
  -- what was loaded before is out of the way of the new section
  have hbefore {s₂ s₃ : Kernel} {source : ℕ → ℕ}
      (hpages : Acquired roots pml4 (rangePages sh.shAddr sh.shSize) st.kernel.machine s₂.machine)
      (hrange : Filled roots pml4 sh.shAddr sh.shSize source s₂ s₃) (i : ℕ) (hi : i < n)
      (hiLoaded : (s.sectionAt base header i).Loaded) :
      SectionLoaded roots base pml4 s (s.sectionAt base header i) s₃ := by
    refine (h.contents i hi hiLoaded).kept hpages hrange (himage.placed i (by omega) hiLoaded).2 ?_
    have hclear := haccepted.2 _ (h.areas i hi hiLoaded)
    rw [add64_of_lt hword] at hclear
    dsimp only [newArea] at hclear
    omega
  have hareas (i : ℕ) (hi : i < n + 1) (hiLoaded : (s.sectionAt base header i).Loaded) :
      newArea (s.sectionAt base header i).shAddr ((s.sectionAt base header i).shAddr + (s.sectionAt base header i).shSize) ∈
        insertArea st.areas (sh.shAddr, sh.shSize) := by
    rw [mem_insertArea, add64_of_lt hword]
    rcases Nat.lt_succ_iff_lt_or_eq.mp hi with hlt | rfl
    · exact Or.inr (h.areas i hlt hiLoaded)
    · rw [hsh]
      exact Or.inl rfl
  have hall (hold : ∀ i < n, (s.sectionAt base header i).Loaded →
      SectionLoaded roots base pml4 s (s.sectionAt base header i) st'.kernel) (i : ℕ) (hi : i < n + 1)
      (hiLoaded : (s.sectionAt base header i).Loaded) :
      SectionLoaded roots base pml4 s (s.sectionAt base header i) st'.kernel := by
    rcases Nat.lt_succ_iff_lt_or_eq.mp hi with hlt | rfl
    · exact hold i hlt hiLoaded
    · rw [hsh]
      exact hself
  cases hfilled with
  | nobits s₁ s₂ htype hbytes hpages hrange hst hkernel =>
    have hkept : ImageKept base header n s s₂ := fun a ha => by
      rw [hrange.bytes, hbytes]
      exact h.image a ha
    refine ⟨?_, ?_, by rw [hst]; exact hsorted, ?_, by rw [hst]; exact hareas, hall fun i hi hiLoaded => ?_⟩
    · rw [hkernel]
      exact hrange.ready
    · rw [hkernel]
      exact fun va hva => hrange.spare (hpages.spare (h.spare va hva))
    · rw [hkernel]
      exact hkept.setOffset himage hn (by rw [hsh]; exact htype) _
    · rw [hkernel]
      obtain ⟨howned, hprogbits, hnobits⟩ := hbefore hpages hrange i hi hiLoaded
      exact ⟨howned, hprogbits, hnobits⟩
  | progbits s₁ htype hbytes hpages hrange hst =>
    refine ⟨hrange.ready, fun va hva => hrange.spare (hpages.spare (h.spare va hva)), by rw [hst]; exact hsorted, ?_,
      by rw [hst]; exact hareas, hall fun i hi hiLoaded => hbefore hpages hrange i hi hiLoaded⟩
    refine ImageKept.next fun a ha => ?_
    rw [hrange.bytes, hbytes]
    exact h.image a ha

/-- The first loop passes over a section that is not to be loaded. -/
theorem LoadState.fixedSection_skip (st : LoadState) {i : ℕ} (hskip : ¬ (st.kernel.sectionAt base header i).Loaded) :
    LoadState.fixedSection base pml4 header st i = .ok st := by
  unfold LoadState.fixedSection
  dsimp only
  rw [show st.kernel.elfSection (sectionAddress base header i) = st.kernel.sectionAt base header i from rfl]
  by_cases hnull : (st.kernel.sectionAt base header i).shType = shtNull
  · rw [if_pos hnull]
  · cases halloc : (st.kernel.sectionAt base header i).isAlloc with
    | false => rw [if_neg hnull, if_pos rfl]
    | true =>
      have hempty : (st.kernel.sectionAt base header i).shSize = 0 := by
        by_contra hne
        exact hskip ⟨hnull, halloc, hne⟩
      rw [if_neg hnull, if_neg (by decide), if_pos hempty, ite_self]

/-- One round of the first loop that does not return. -/
theorem LoadedUpTo.fixedSection (h : LoadedUpTo roots base pml4 header s n st) (himage : LoadableImage s base header)
    (hpml4 : align pml4 ∈ roots) (hn : n < header.shnum)
    (hok : LoadState.fixedSection base pml4 header st n = .ok st') :
    LoadedUpTo roots base pml4 header s (n + 1) st' := by
  have hsh : st.kernel.elfSection (sectionAddress base header n) = s.sectionAt base header n :=
    h.image.sectionAt_eq himage hn (Nat.le_refl n)
  by_cases hloaded : (s.sectionAt base header n).Loaded
  · obtain ⟨haddr, hend⟩ := himage.placed n hn hloaded
    have huser : userEnd = 2 ^ 47 := rfl
    unfold LoadState.fixedSection at hok
    dsimp only at hok
    rw [hsh, if_neg hloaded.1, if_neg (by rw [hloaded.2.1]; decide), if_neg haddr, if_neg hloaded.2.2] at hok
    cases hrequest : requestVaHole st.areas (s.sectionAt base header n).shAddr (s.sectionAt base header n).shSize with
    | none =>
      rw [hrequest] at hok
      exact absurd hok (by simp)
    | some areas =>
      obtain ⟨haccepted, rfl⟩ := (requestVaHole_eq_some_iff h.sorted
        ((s.sectionAt base header n).shAddr, (s.sectionAt base header n).shSize)).mp hrequest
      rw [hrequest, add64_of_lt (by omega)] at hok
      dsimp only at hok
      refine h.filled himage hn rfl hloaded haccepted ?_
      generalize hst : ({ st with areas := insertArea st.areas ((s.sectionAt base header n).shAddr,
        (s.sectionAt base header n).shSize) } : LoadState) = st₁ at hok ⊢
      have hkernel : st.kernel = st₁.kernel := by rw [← hst]
      refine LoadState.fillSection_ok ?_ hpml4 ?_ ?_ hend himage.kernel
        (fun htype => (himage.file n hn hloaded htype).1) hloaded.2.2 hok
      · rw [← hkernel]
        exact h.ready
      · rw [← hkernel]
        exact h.spare
      · rw [← hkernel]
        exact hsh
  · rw [st.fixedSection_skip fun hthere => hloaded (by rw [← hsh]; exact hthere)] at hok
    obtain rfl := Except.ok.inj hok
    exact h.passed hloaded

end Loop

end Cthulhu
