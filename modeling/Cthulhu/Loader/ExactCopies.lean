import Cthulhu.Loader.FillSection

/-!
# Copies and fills, byte by byte

`memset_dpgs` fills a range of another address space and changes nothing else, and `memcpy_dpgs` copies
between two address spaces, whatever the offsets and the length. Both reach a page through the mirror
of its frame: the null frame is behind the null pointer, and a page that maps one of the tables changes
the translation of the pages behind it. When both ranges are kernel addresses, `memcpy_dpgs` calls
`memcpy` with the two pointers exchanged.
-/

namespace Cthulhu

open Lib

/-- The pages of a range of the user half are present, without execute-disable, and have a frame each. -/
structure UserRange (s : Kernel) (cr3 start n : ℕ) : Prop where
  below : start + n ≤ userEnd
  visible : ∀ k < n, s.Visible cr3 (start + k)
  distinct : ∀ i < n, ∀ j < n, frameOf (leafEntry s.machine.memory cr3 (start + i)) =
    frameOf (leafEntry s.machine.memory cr3 (start + j)) → SamePage (start + i) (start + j)

/-- `memset_dpgs` returns, the range shows the low byte of the value everywhere, and no other byte
changed. -/
def FillsExactly (s : Kernel) (cr3 start v n : ℕ) : Prop :=
  ∃ s', s.memsetDpgs cr3 start v n = some s' ∧ (∀ k < n, s'.seenByte cr3 (start + k) = some (v % 256)) ∧
    ∀ p, (∀ k < n, s.place cr3 (start + k) ≠ p) → s'.byteAt p = s.byteAt p

/-- `memset_dpgs` fills every range of pages that map neither the null frame nor a table of the address
space, and changes nothing else. -/
theorem memsetDpgs_fills (s : Kernel) (cr3 start v n : ℕ) (hrange : UserRange s cr3 start n)
    (hnonnull : ∀ k < n, frameOf (leafEntry s.machine.memory cr3 (start + k)) ≠ 0)
    (htables : ∀ k < n, ¬ paging.IsTable s.machine.memory {align cr3} (frameOf (leafEntry s.machine.memory cr3 (start + k)))) :
    FillsExactly s cr3 start v n := by
  have hplace (k : ℕ) (hk : k < n) : s.place cr3 (start + k) =
      .frame (frameOf (leafEntry s.machine.memory cr3 (start + k))) ((start + k) % 0x1000) := by
    have hbelow := hrange.below
    exact if_neg (by rw [isPhysical_of_lt (by omega)]; decide)
  have hreach : Reach s cr3 start n := by
    refine ⟨hrange.visible, fun k hk o heq => hnonnull k hk ?_⟩
    rw [hplace k hk, Place.frame.injEq] at heq
    exact heq.1
  have hoff : OffTables {align cr3} s (fun k => s.place cr3 (start + k)) n := by
    intro k hk f o heq
    dsimp only at heq
    rw [hplace k hk, Place.frame.injEq] at heq
    rw [← heq.1]
    exact htables k hk
  have hroot : align cr3 ∈ ({align cr3} : Finset ℕ) := Finset.mem_singleton_self _
  obtain ⟨s', hset, hput⟩ := Kernel.memsetDpgs_put hroot v hrange.below hreach hoff
  refine ⟨s', hset, fun k hk => ?_, hput.outside⟩
  have hvisible := hput.visible hoff (fun _ => hroot) (hrange.visible k hk)
  rw [hvisible.seenByte, hput.place_eq hoff fun _ => hroot, hput.exact (fun _ _ _ _ _ => rfl) hk]

/-- Pages that own their frames are a range of the user half. -/
theorem UserRange.of_owned {roots : Finset ℕ} {s : Kernel} {cr3 start n : ℕ} (h : Mappable roots s.machine)
    (hcr3 : align cr3 ∈ roots) (hbelow : start + n ≤ userEnd)
    (howned : ∀ k < n, Owned roots cr3 s.machine (start + k)) : UserRange s cr3 start n := by
  refine ⟨hbelow, fun k hk => (howned k hk).visible (by omega), fun i hi j hj heq => ?_⟩
  rw [frameOf_of_lt (howned i hi).low, frameOf_of_lt (howned j hj).low] at heq
  exact (howned i hi).samePage (howned j hj) hcr3 h.tree heq

/-- A machine whose active address space has two pages, at `0x400000`. -/
def twoPageMachine : Machine := (blankMachine.allocate 0x400000 0x2000 false false 0x100000).2

/-- A kernel with these two pages. -/
def twoPageKernel : Kernel := ⟨twoPageMachine, fun _ => 0⟩

/-- The two pages own their frames. -/
theorem twoPageMachine_acquired :
    Acquired {0x100000} 0x100000 (rangePages 0x400000 0x2000) blankMachine twoPageMachine := by
  have hready : Mappable {0x100000} blankMachine :=
    ⟨blankMachine_oneReference, by decide, fun s hs => by rw [List.mem_singleton.mp hs]; decide⟩
  have hout : ∀ p ∈ rangePages 0x400000 0x2000, pmlIndex p ≠ 510 := fun p hp => (rangePages_user (by decide) p hp).2
  have hspare : ∀ p ∈ rangePages 0x400000 0x2000, Spare {0x100000} 0x100000 blankMachine p := by
    intro p _
    left
    have hzero : leafEntry blankMachine.memory 0x100000 p = 0 := by
      unfold leafEntry
      split <;> rfl
    rw [hzero]
    decide
  have htrue : (blankMachine.allocate 0x400000 0x2000 false false 0x100000).1 = true := by decide +kernel
  unfold twoPageMachine
  exact hready.allocate_acquired (by decide) false false (by decide) hout hspare htrue

/-- The pages of a range over the boundary of the two pages own frames that are not null. -/
theorem twoPageKernel_owned {k : ℕ} (hk : k < 0x1000) :
    Owned {0x100000} 0x100000 twoPageKernel.machine (0x400800 + k) ∧
      pageFrame 0x100000 twoPageKernel.machine (0x400800 + k) ≠ 0 := by
  have hpages : Acquired {0x100000} 0x100000 (rangePages 0x400000 0x2000) blankMachine twoPageKernel.machine := by
    dsimp only [twoPageKernel]
    exact twoPageMachine_acquired
  obtain ⟨p, hp, hsame⟩ := rangePages_cover (show 0x800 + k < 0x2000 by omega)
  rw [← Nat.add_assoc] at hsame
  refine ⟨(hpages.owned p hp).of_samePage hsame, ?_⟩
  unfold pageFrame
  rw [hsame.leafEntry_eq twoPageKernel.machine.memory 0x100000]
  exact hpages.nonzero p hp

/-- A range over the boundary of the two pages is filled. -/
theorem memsetDpgs_fills_boundary : UserRange twoPageKernel 0x100000 0x400800 0x1000 ∧
    FillsExactly twoPageKernel 0x100000 0x400800 0x107 0x1000 := by
  have hready : Mappable {0x100000} twoPageKernel.machine := by
    dsimp only [twoPageKernel]
    exact twoPageMachine_acquired.ready
  have howned (k : ℕ) (hk : k < 0x1000) := twoPageKernel_owned hk
  have hrange := UserRange.of_owned hready (by decide) (by decide) fun k hk => (howned k hk).1
  refine ⟨hrange, memsetDpgs_fills twoPageKernel 0x100000 0x400800 0x107 0x1000 hrange (fun k hk => ?_) fun k hk => ?_⟩
  · rw [frameOf_of_lt (howned k hk).1.low]
    exact (howned k hk).2
  · rw [frameOf_of_lt (howned k hk).1.low]
    exact (howned k hk).1.not_isTable (by decide)

/-- A kernel whose active address space maps one physical page, at `0x400000`. -/
def mappedKernel (frame : ℕ) : Kernel :=
  ⟨(blankMachine.mapRange frame (frame + 0x1000) 0x400000 false false false 0x100000).2, fun _ => 0⟩

/-- A page that is the only one of its range. -/
theorem UserRange.single {s : Kernel} {cr3 start : ℕ} (hbelow : start < userEnd)
    (hpresent : present (leafEntry s.machine.memory cr3 start) = true)
    (hlow : leafEntry s.machine.memory cr3 start < 2 ^ 62) : UserRange s cr3 start 1 := by
  refine ⟨hbelow, fun k hk => ?_, fun i hi j hj _ => ?_⟩
  · obtain rfl : k = 0 := by omega
    exact Or.inr ⟨hbelow, hpresent, hlow⟩
  · obtain rfl : i = j := by omega
    rfl

/-- On a page that maps the null frame the fill is a fault, and on a page that maps its own table it
unmaps the page. -/
theorem memsetDpgs_fails :
    (UserRange (mappedKernel 0) 0x100000 0x400000 1 ∧ ¬ FillsExactly (mappedKernel 0) 0x100000 0x400000 1 1) ∧
      UserRange (mappedKernel 0x203000) 0x100000 0x400000 1 ∧
      ¬ FillsExactly (mappedKernel 0x203000) 0x100000 0x400000 0 1 := by
  refine ⟨⟨?_, ?_⟩, ?_, ?_⟩
  · exact .single (by decide) (by decide +kernel) (by decide +kernel)
  · rintro ⟨s', hset, -⟩
    have hfault : ((mappedKernel 0).memsetDpgs 0x100000 0x400000 1 1).isNone = true := by decide +kernel
    rw [hset] at hfault
    exact Bool.noConfusion (show false = true from hfault)
  · exact .single (by decide) (by decide +kernel) (by decide +kernel)
  · rintro ⟨s', hset, hseen, -⟩
    have hunmapped : ((mappedKernel 0x203000).memsetDpgs 0x100000 0x400000 0 1).map
        (fun s' => s'.seenByte 0x100000 0x400000) = some none := by decide +kernel
    rw [hset, Option.map_some, hseen 0 (by decide)] at hunmapped
    exact absurd hunmapped (by decide)

/-- The two ranges of a copy: visible bytes, and no byte of the destination is one of the source. -/
structure CopyRanges (s : Kernel) (cr3a cr3b dest src n : ℕ) : Prop where
  visibleDest : ∀ k < n, s.Visible cr3a (dest + k)
  visibleSrc : ∀ k < n, s.Visible cr3b (src + k)
  disjoint : ∀ i < n, ∀ j < n, s.place cr3a (dest + i) ≠ s.place cr3b (src + j)

/-- `memcpy_dpgs` returns, the destination shows what the source showed, and no other byte changed. -/
def CopiesExactly (s : Kernel) (cr3a cr3b dest src n : ℕ) : Prop :=
  ∃ s', s.memcpyDpgs cr3a cr3b dest src n = some s' ∧
    (∀ k < n, s'.seenByte cr3a (dest + k) = s.seenByte cr3b (src + k)) ∧
    ∀ p, (∀ k < n, s.place cr3a (dest + k) ≠ p) → s'.byteAt p = s.byteAt p

/-- No page of the ranges maps the null frame, and none of the destination maps a table of the two address
spaces. -/
structure OrdinaryPages (s : Kernel) (cr3a cr3b dest src n : ℕ) : Prop where
  nonnullDest : ∀ k < n, ∀ o, s.place cr3a (dest + k) ≠ .frame 0 o
  nonnullSrc : ∀ k < n, ∀ o, s.place cr3b (src + k) ≠ .frame 0 o
  offTables : OffTables {align cr3a, align cr3b} s (fun k => s.place cr3a (dest + k)) n

/-- Two kernel ranges have the same bytes already, and addresses of the destination that are one byte
have one byte in the source. -/
structure CopyCondition (s : Kernel) (cr3a cr3b dest src n : ℕ) : Prop where
  kernel : isPhysical dest = true → isPhysical src = true →
    ∀ k < n, s.seenByte cr3a (dest + k) = s.seenByte cr3b (src + k)
  same : ∀ i < n, ∀ j < n, s.place cr3a (dest + i) = s.place cr3a (dest + j) →
    s.seenByte cr3b (src + i) = s.seenByte cr3b (src + j)

section Copies

variable {s : Kernel} {cr3a cr3b dest src n : ℕ}

/-- A range that starts at a user address has no kernel address. -/
theorem Kernel.Visible.user_range {cr3 va : ℕ} (h : ∀ k < n, s.Visible cr3 (va + k)) (hva : isPhysical va = false) :
    ∀ k < n, isPhysical (va + k) = false := by
  intro k
  induction k with
  | zero => exact fun _ => hva
  | succ k ih =>
    intro hk
    have hend : userEnd = 2 ^ 47 := rfl
    have hbefore := ih (by omega)
    rcases h k (by omega) with ⟨hkernel, -⟩ | ⟨huser, -, -⟩
    · exact absurd (hkernel.symm.trans hbefore) (by decide)
    · unfold isPhysical
      rw [decide_eq_false_iff_not]
      omega

/-- Two kernel ranges are copied the wrong way round. -/
theorem CopyRanges.kernel_put (h : CopyRanges s cr3a cr3b dest src n) (hdest : isPhysical dest = true)
    (hsrc : isPhysical src = true) :
    ∃ s', s.memcpyDpgs cr3a cr3b dest src n = some s' ∧
      Put (fun k => s.place cr3b (src + k)) n (fun k => s.byteAt (s.place cr3a (dest + k))) s s' := by
  cases n with
  | zero => exact ⟨s, rfl, .refl s _ _⟩
  | succ n =>
    have hwordDest := (h.visibleDest n (by omega)).word
    have hwordSrc := (h.visibleSrc n (by omega)).word
    have hload (k : ℕ) (hk : k < n + 1) : s.load (.address dest) k = some (s.byteAt (s.place cr3a (dest + k))) := by
      unfold Kernel.load Kernel.place
      dsimp only
      rw [add64_of_lt (by omega), if_pos (isPhysical_add hdest), if_pos (isPhysical_add hdest)]
      rfl
    obtain ⟨s', hwrite, hput⟩ := s.write_kernel hsrc (show src + (n + 1) ≤ 2 ^ 64 by omega)
      fun k => (s.load (.address dest) k).getD 0
    refine ⟨s', ?_, hput.congr (fun k _ => if_pos (isPhysical_add hsrc)) fun k hk => ?_⟩
    · unfold Kernel.memcpyDpgs Kernel.memcpyDpgsLoop
      rw [if_neg (by omega), if_pos (by rw [hdest, hsrc]; rfl)]
      unfold Kernel.memcpy
      rw [if_pos fun k hk => by rw [hload k hk]; rfl, hwrite]
    · rw [hload k hk, Option.getD_some]

/-- Two kernel ranges are copied exactly when they have the same bytes. -/
theorem CopyRanges.kernel_iff (h : CopyRanges s cr3a cr3b dest src n) (hdest : isPhysical dest = true)
    (hsrc : isPhysical src = true) :
    CopiesExactly s cr3a cr3b dest src n ↔ ∀ k < n, s.seenByte cr3a (dest + k) = s.seenByte cr3b (src + k) := by
  obtain ⟨s', hcopy, hput⟩ := h.kernel_put hdest hsrc
  have hplace (t : Kernel) (k : ℕ) : t.place cr3a (dest + k) = .kernel (dest + k) := if_pos (isPhysical_add hdest)
  have hseen (t : Kernel) (k : ℕ) : t.seenByte cr3a (dest + k) = some (t.byteAt (.kernel (dest + k))) :=
    if_pos (isPhysical_add hdest)
  have hkept (k : ℕ) (hk : k < n) : s'.seenByte cr3a (dest + k) = s.seenByte cr3a (dest + k) := by
    rw [hseen, hseen, hput.outside _ fun j hj heq => h.disjoint k hk j hj (by rw [hplace, heq])]
  constructor
  · rintro ⟨t, ht, hbytes, -⟩ k hk
    obtain rfl : s' = t := Option.some.inj (hcopy.symm.trans ht)
    rw [← hkept k hk]
    exact hbytes k hk
  · intro hsame
    refine ⟨s', hcopy, fun k hk => (hkept k hk).trans (hsame k hk), fun p _ => ?_⟩
    by_cases hp : ∃ k < n, s.place cr3b (src + k) = p
    · obtain ⟨k, hk, rfl⟩ := hp
      obtain ⟨j, hj, heq, hbyte⟩ := hput.inside k hk
      have hequal := hsame j hj
      rw [(h.visibleDest j hj).seenByte, (h.visibleSrc j hj).seenByte] at hequal
      rw [hbyte, s.byteAt_mod, Option.some.inj hequal, heq]
    · exact hput.outside p fun k hk heq => hp ⟨k, hk, heq⟩

/-- A copy to or from user pages is exact exactly when addresses of the destination that are one byte
have one byte in the source. -/
theorem CopyRanges.user_iff (h : CopyRanges s cr3a cr3b dest src n) (hpages : OrdinaryPages s cr3a cr3b dest src n)
    (huser : ¬ (isPhysical src = true ∧ isPhysical dest = true)) :
    CopiesExactly s cr3a cr3b dest src n ↔ ∀ i < n, ∀ j < n, s.place cr3a (dest + i) = s.place cr3a (dest + j) →
      s.seenByte cr3b (src + i) = s.seenByte cr3b (src + j) := by
  have hroot (va : ℕ) : isPhysical va = false → align cr3a ∈ ({align cr3a, align cr3b} : Finset ℕ) :=
    fun _ => Finset.mem_insert_self _ _
  have hcopyable : Copyable {align cr3a, align cr3b} s cr3a cr3b dest src n :=
    ⟨hroot dest, fun _ => Finset.mem_insert_of_mem (Finset.mem_singleton_self _), ⟨h.visibleDest, hpages.nonnullDest⟩,
      ⟨h.visibleSrc, hpages.nonnullSrc⟩, hpages.offTables, h.disjoint⟩
  have hrange : ∀ k < n, ¬ (isPhysical (src + k) = true ∧ isPhysical (dest + k) = true) := by
    rintro k hk ⟨hsrc, hdest⟩
    refine huser ⟨?_, ?_⟩
    · cases hva : isPhysical src with
      | true => rfl
      | false => rw [Kernel.Visible.user_range h.visibleSrc hva k hk] at hsrc; exact hsrc
    · cases hva : isPhysical dest with
      | true => rfl
      | false => rw [Kernel.Visible.user_range h.visibleDest hva k hk] at hdest; exact hdest
  obtain ⟨s', hcopy, hput⟩ := hcopyable.memcpyDpgs hrange
  have hseen (k : ℕ) (hk : k < n) : s'.seenByte cr3a (dest + k) = some (s'.byteAt (s.place cr3a (dest + k))) := by
    rw [(hput.visible hpages.offTables (hroot _) (h.visibleDest k hk)).seenByte, hput.place_eq hpages.offTables (hroot _)]
  constructor
  · rintro ⟨t, ht, hbytes, -⟩ i hi j hj heq
    obtain rfl : s' = t := Option.some.inj (hcopy.symm.trans ht)
    rw [← hbytes i hi, ← hbytes j hj, hseen i hi, hseen j hj, heq]
  · intro hsame
    refine ⟨s', hcopy, fun k hk => ?_, hput.outside⟩
    obtain ⟨j, hj, heq, hbyte⟩ := hput.inside k hk
    rw [hseen k hk, hbyte, s.byteAt_mod, ← hsame j hj k hk heq, (h.visibleSrc j hj).seenByte]

end Copies

/-- The copy theorem: the condition is enough for `memcpy_dpgs` to copy exactly, and on ordinary pages it
is needed. -/
theorem memcpyDpgs_copies (s : Kernel) (cr3a cr3b dest src n : ℕ) (hranges : CopyRanges s cr3a cr3b dest src n) :
    (OrdinaryPages s cr3a cr3b dest src n ∧ CopyCondition s cr3a cr3b dest src n →
      CopiesExactly s cr3a cr3b dest src n) ∧
    (OrdinaryPages s cr3a cr3b dest src n → CopiesExactly s cr3a cr3b dest src n →
      CopyCondition s cr3a cr3b dest src n) := by
  by_cases hkernel : isPhysical src = true ∧ isPhysical dest = true
  · have hexact := hranges.kernel_iff hkernel.2 hkernel.1
    refine ⟨fun hcond => hexact.mpr (hcond.2.kernel hkernel.2 hkernel.1), fun _ hcopies => ⟨fun _ _ => hexact.mp hcopies, ?_⟩⟩
    intro i _ j _ heq
    have hplace (k : ℕ) : s.place cr3a (dest + k) = .kernel (dest + k) := if_pos (isPhysical_add hkernel.2)
    rw [hplace, hplace, Place.kernel.injEq] at heq
    obtain rfl : i = j := by omega
    rfl
  · refine ⟨fun hcond => (hranges.user_iff hcond.1 hkernel).mpr hcond.2.same, fun hpages hcopies => ⟨?_, ?_⟩⟩
    · exact fun hdest hsrc => absurd ⟨hsrc, hdest⟩ hkernel
    · exact (hranges.user_iff hpages hkernel).mp hcopies

/-- A copy from kernel addresses over the boundary of two pages. -/
theorem memcpyDpgs_copies_boundary :
    CopyRanges twoPageKernel 0x100000 0x100000 0x400800 0xFFFF900000000001 0x1000 ∧
      CopiesExactly twoPageKernel 0x100000 0x100000 0x400800 0xFFFF900000000001 0x1000 := by
  have howned (k : ℕ) (hk : k < 0x1000) := twoPageKernel_owned hk
  have huser (k : ℕ) (hk : k < 0x1000) : 0x400800 + k < userEnd := by
    unfold userEnd
    omega
  have hdest (k : ℕ) (hk : k < 0x1000) : twoPageKernel.place 0x100000 (0x400800 + k) =
      .frame (pageFrame 0x100000 twoPageKernel.machine (0x400800 + k)) ((0x400800 + k) % 0x1000) :=
    (howned k hk).1.place_eq (isPhysical_of_lt (huser k hk))
  have hphys : isPhysical 0xFFFF900000000001 = true := by decide
  have hsrc (k : ℕ) : twoPageKernel.place 0x100000 (0xFFFF900000000001 + k) = .kernel (0xFFFF900000000001 + k) :=
    if_pos (isPhysical_add hphys)
  have hseen (k : ℕ) : twoPageKernel.seenByte 0x100000 (0xFFFF900000000001 + k) = some 0 :=
    if_pos (isPhysical_add hphys)
  have hranges : CopyRanges twoPageKernel 0x100000 0x100000 0x400800 0xFFFF900000000001 0x1000 := by
    refine ⟨fun k hk => (howned k hk).1.visible (huser k hk), fun k hk => Or.inl ⟨isPhysical_add hphys, by omega⟩,
      fun i hi j _ => ?_⟩
    rw [hdest i hi, hsrc]
    simp
  refine ⟨hranges, (memcpyDpgs_copies twoPageKernel 0x100000 0x100000 0x400800 0xFFFF900000000001 0x1000 hranges).1
    ⟨⟨fun k hk o => ?_, fun k _ o => ?_, ?_⟩, fun hkernel => ?_, fun i _ j _ _ => by rw [hseen, hseen]⟩⟩
  · rw [hdest k hk]
    intro heq
    exact (howned k hk).2 (Place.frame.inj heq).1
  · rw [hsrc]
    simp
  · rw [show ({align 0x100000, align 0x100000} : Finset ℕ) = {0x100000} by decide]
    exact Owned.offTables (by decide) (by decide) fun k hk => (howned k hk).1
  · exact absurd hkernel (by decide)

/-- A kernel with a one at a single kernel address. -/
def markedKernel : Kernel := ⟨blankMachine, fun a => if a = 0xFFFF900000000000 then 1 else 0⟩

/-- One byte is copied between kernel addresses in the wrong direction. -/
theorem memcpyDpgs_reversed :
    CopyRanges markedKernel 0x100000 0x100000 0xFFFF900000000001 0xFFFF900000000000 1 ∧
      ¬ CopiesExactly markedKernel 0x100000 0x100000 0xFFFF900000000001 0xFFFF900000000000 1 := by
  have hranges : CopyRanges markedKernel 0x100000 0x100000 0xFFFF900000000001 0xFFFF900000000000 1 := by
    refine ⟨fun k hk => Or.inl ?_, fun k hk => Or.inl ?_, fun i hi j hj => ?_⟩
    · obtain rfl : k = 0 := by omega
      decide
    · obtain rfl : k = 0 := by omega
      decide
    · obtain rfl : i = 0 := by omega
      obtain rfl : j = 0 := by omega
      decide
  refine ⟨hranges, fun hcopies => ?_⟩
  have hequal := (hranges.kernel_iff (by decide) (by decide)).mp hcopies 0 (by decide)
  exact absurd hequal (by decide)

end Cthulhu
