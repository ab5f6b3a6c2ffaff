import Cthulhu.Loader.Places

/-!
# What the copies put where

The loops of `memset_dpgs` and `memcpy_dpgs` split their ranges at page boundaries and translate
every piece on its own. They put the bytes of their range at the places that the address space has for
it, as long as no page of it maps the null frame, which `physical_to_virtual` takes for no frame, and no
byte is put in a table that a later piece is translated with.
-/

namespace Cthulhu

open Lib

/-- The bytes of a range are visible and none of them is in the null frame. -/
structure Reach (s : Kernel) (cr3 va n : ℕ) : Prop where
  visible : ∀ k < n, s.Visible cr3 (va + k)
  nonnull : ∀ k < n, ∀ o, s.place cr3 (va + k) ≠ .frame 0 o

/-- What is behind a user address in its range is behind no kernel address. -/
theorem isPhysical_of_add {a k : ℕ} (h : isPhysical (a + k) = false) : isPhysical a = false := by
  cases ha : isPhysical a with
  | false => rfl
  | true =>
    rw [isPhysical_add ha] at h
    exact h

/-- A visible address is a machine word. -/
theorem Kernel.Visible.word {s : Kernel} {cr3 va : ℕ} (h : s.Visible cr3 va) : va < 2 ^ 64 := by
  rcases h with ⟨-, hword⟩ | ⟨huser, -, -⟩
  · exact hword
  · exact huser.trans (by decide)

section Reach

variable {roots : Finset ℕ} {s s' : Kernel} {place : ℕ → Place} {source : ℕ → ℕ} {cr3 va n c : ℕ}

/-- The first bytes of a range, up to the end of their page. -/
theorem Reach.chunk (h : Reach s cr3 va n) (hc : 0 < c) (hcn : c ≤ n) (hpage : va % 0x1000 + c ≤ 0x1000) :
    Chunk s cr3 va c := by
  have hfirst := h.visible 0 (by omega)
  have hnonnull := h.nonnull 0 (by omega)
  rw [Nat.add_zero] at hfirst hnonnull
  have hlast := (h.visible (c - 1) (by omega)).word
  exact ⟨hfirst, hnonnull, by omega, hpage⟩

/-- The rest of a range, after bytes were put outside of the tables. -/
theorem Reach.rest (h : Reach s cr3 va n) (hput : Put place c source s s') (hoff : OffTables roots s place c)
    (hcr3 : isPhysical va = false → align cr3 ∈ roots) (hcn : c ≤ n) : Reach s' cr3 (va + c) (n - c) := by
  refine ⟨fun k hk => ?_, fun k hk o => ?_⟩
  · rw [Nat.add_assoc]
    exact hput.visible hoff (fun hva => hcr3 (isPhysical_of_add hva)) (h.visible (c + k) (by omega))
  · rw [Nat.add_assoc, hput.place_eq hoff fun hva => hcr3 (isPhysical_of_add hva)]
    exact h.nonnull (c + k) (by omega) o

/-- The rest of a range stays out of the tables. -/
theorem OffTables.rest {cr3' : ℕ} (h : OffTables roots s (fun k => s.place cr3' (va + k)) n)
    (hput : Put place c source s s') (hoff : OffTables roots s place c)
    (hcr3 : isPhysical va = false → align cr3' ∈ roots) (hcn : c ≤ n) :
    OffTables roots s' (fun k => s'.place cr3' (va + c + k)) (n - c) := by
  intro k hk f o hplace
  dsimp only at hplace
  rw [Nat.add_assoc, hput.place_eq hoff fun hva => hcr3 (isPhysical_of_add hva)] at hplace
  rw [hput.isTable hoff]
  exact h (c + k) (by omega) f o hplace

/-- A shorter range is out of the tables too. -/
theorem OffTables.take (h : OffTables roots s place n) (hcn : c ≤ n) : OffTables roots s place c :=
  fun k hk => h k (by omega)

/-- The offset of an address in its page. -/
theorem sub_align (a : ℕ) : a - align a = a % 0x1000 := by
  unfold align
  omega

/-- A byte is below 256. -/
theorem Kernel.byteAt_mod (s : Kernel) (p : Place) : s.byteAt p % 256 = s.byteAt p := by
  cases p with
  | frame f o => exact Nat.mod_eq_of_lt (byteOf_lt _ _)
  | kernel a => exact Nat.mod_mod _ _

end Reach

section Memset

variable {roots : Finset ℕ} {s : Kernel} {cr3 : ℕ}

/-- The loop of `memset_dpgs` puts its value at the places of its range. -/
theorem Kernel.memsetDpgsLoop_put (hcr3 : align cr3 ∈ roots) (v : ℕ) {fuel src n : ℕ} (hfuel : n ≤ fuel)
    (hend : src + n ≤ userEnd) (hreach : Reach s cr3 src n)
    (hoff : OffTables roots s (fun k => s.place cr3 (src + k)) n) :
    ∃ s', Kernel.memsetDpgsLoop cr3 v fuel s src (src % 0x1000) n = some s' ∧
      Put (fun k => s.place cr3 (src + k)) n (fun _ => v) s s' := by
  induction fuel generalizing s src n with
  | zero =>
    obtain rfl : n = 0 := by omega
    exact ⟨s, rfl, .refl s _ _⟩
  | succ fuel ih =>
    unfold Kernel.memsetDpgsLoop
    by_cases hzero : n = 0
    · rw [if_pos hzero, hzero]
      exact ⟨s, rfl, .refl s _ _⟩
    have huser : userEnd = 2 ^ 47 := rfl
    have hoffs : src % 0x1000 < 0x1000 := Nat.mod_lt _ (by decide)
    have hphys : isPhysical src = false := isPhysical_of_lt (by omega)
    obtain ⟨c, hc⟩ : ∃ c, c = if 0x1000 - src % 0x1000 < n then 0x1000 - src % 0x1000 else n := ⟨_, rfl⟩
    have hbounds : 0 < c ∧ c ≤ n ∧ src % 0x1000 + c ≤ 0x1000 := by
      split at hc <;> omega
    obtain ⟨hpos, hcn, hpage⟩ := hbounds
    have hchunk := hreach.chunk hpos hcn hpage
    have hpresent : present (leafEntry s.machine.memory cr3 src) = true := by
      rcases hchunk.visible with ⟨hkernel, -⟩ | ⟨-, hpresent, -⟩
      · rw [hphys] at hkernel
        exact absurd hkernel (by decide)
      · exact hpresent
    have hlookup := Kernel.lookup_present hphys hpresent
    have hpointer : frameMemory (align (leafEntry s.machine.memory cr3 src)) (src % 0x1000) = s.pointer cr3 src := by
      unfold Kernel.pointer
      rw [hlookup]
    obtain ⟨s₁, hwrite, hput⟩ := hchunk.write hpos fun _ => v
    rw [if_neg hzero, if_neg (by rw [hphys]; decide), hlookup]
    dsimp only
    rw [hpointer, ← hc, Kernel.memset, hwrite, Option.bind_some]
    by_cases hlast : n ≤ 0x1000 - src % 0x1000
    · rw [if_pos hlast]
      obtain rfl : c = n := by
        rw [if_neg (by omega)] at hc
        exact hc
      exact ⟨s₁, rfl, hput⟩
    · rw [if_neg hlast]
      rw [if_pos (by omega)] at hc
      have hshort := hoff.take hcn
      obtain ⟨s', hrest, hput'⟩ := ih (show n - c ≤ fuel by omega) (show src + c + (n - c) ≤ userEnd by omega)
        (hreach.rest hput hshort (fun _ => hcr3) hcn) (hoff.rest hput hshort (fun _ => hcr3) hcn)
      refine ⟨s', ?_, ?_⟩
      · rw [add64_of_lt (by omega), ← hc, show (0 : ℕ) = (src + c) % 0x1000 by omega]
        exact hrest
      · have hwhole := hput.append (hput'.congr (fun k _ => ?_) fun _ _ => rfl)
        · rw [Nat.add_sub_cancel' hcn] at hwhole
          exact hwhole
        · rw [hput.place_eq hshort fun _ => hcr3, Nat.add_assoc]

/-- `memset_dpgs` puts its value at the places of its range. -/
theorem Kernel.memsetDpgs_put (hcr3 : align cr3 ∈ roots) (v : ℕ) {src n : ℕ} (hend : src + n ≤ userEnd)
    (hreach : Reach s cr3 src n) (hoff : OffTables roots s (fun k => s.place cr3 (src + k)) n) :
    ∃ s', s.memsetDpgs cr3 src v n = some s' ∧ Put (fun k => s.place cr3 (src + k)) n (fun _ => v) s s' := by
  unfold Kernel.memsetDpgs
  rw [sub_align]
  exact Kernel.memsetDpgsLoop_put hcr3 v (Nat.le_refl n) hend hreach hoff

end Memset

section Memcpy

variable {roots : Finset ℕ} {s : Kernel} {cr3a cr3b : ℕ}

/-- `memcpy` between two chunks. -/
theorem Chunk.memcpy {dest src c : ℕ} (hdest : Chunk s cr3a dest c) (hsrc : Chunk s cr3b src c) (hc : 0 < c) :
    ∃ s', s.memcpy (s.pointer cr3a dest) (s.pointer cr3b src) c = some s' ∧
      Put (fun k => s.place cr3a (dest + k)) c (fun k => s.byteAt (s.place cr3b (src + k))) s s' := by
  obtain ⟨s', hwrite, hput⟩ := hdest.write hc fun k => (s.load (s.pointer cr3b src) k).getD 0
  refine ⟨s', ?_, hput.congr (fun _ _ => rfl) fun k hk => ?_⟩
  · unfold Kernel.memcpy
    rw [if_pos fun k hk => by rw [hsrc.load hk]; rfl, hwrite]
  · rw [hsrc.load hk, Option.getD_some]

/-- The source and the destination of a copy: bytes that can be reached, in places that differ. -/
structure Copyable (roots : Finset ℕ) (s : Kernel) (cr3a cr3b dest src n : ℕ) : Prop where
  rootDest : isPhysical dest = false → align cr3a ∈ roots
  rootSrc : isPhysical src = false → align cr3b ∈ roots
  reachDest : Reach s cr3a dest n
  reachSrc : Reach s cr3b src n
  offTables : OffTables roots s (fun k => s.place cr3a (dest + k)) n
  disjoint : ∀ i < n, ∀ j < n, s.place cr3a (dest + i) ≠ s.place cr3b (src + j)

/-- What is left to copy after the first bytes were put. -/
theorem Copyable.rest {s' : Kernel} {dest src n c : ℕ} (h : Copyable roots s cr3a cr3b dest src n) (hcn : c ≤ n)
    (hput : Put (fun k => s.place cr3a (dest + k)) c (fun k => s.byteAt (s.place cr3b (src + k))) s s') :
    Copyable roots s' cr3a cr3b (dest + c) (src + c) (n - c) ∧
      (∀ k, s'.place cr3a (dest + c + k) = s.place cr3a (dest + (c + k))) ∧
      ∀ k < n - c, s'.byteAt (s'.place cr3b (src + c + k)) = s.byteAt (s.place cr3b (src + (c + k))) := by
  have hoff := h.offTables.take hcn
  have hdest (k : ℕ) : s'.place cr3a (dest + c + k) = s.place cr3a (dest + (c + k)) := by
    rw [Nat.add_assoc]
    exact hput.place_eq hoff fun hva => h.rootDest (isPhysical_of_add hva)
  have hsrc (k : ℕ) : s'.place cr3b (src + c + k) = s.place cr3b (src + (c + k)) := by
    rw [Nat.add_assoc]
    exact hput.place_eq hoff fun hva => h.rootSrc (isPhysical_of_add hva)
  have hbyte (k : ℕ) (hk : k < n - c) :
      s'.byteAt (s'.place cr3b (src + c + k)) = s.byteAt (s.place cr3b (src + (c + k))) := by
    rw [hsrc]
    exact hput.outside _ fun i hi => h.disjoint i (by omega) (c + k) (by omega)
  refine ⟨⟨fun hva => h.rootDest (isPhysical_of_add hva), fun hva => h.rootSrc (isPhysical_of_add hva),
    h.reachDest.rest hput hoff h.rootDest hcn, h.reachSrc.rest hput hoff h.rootSrc hcn, h.offTables.rest hput hoff h.rootDest hcn,
    fun i hi j hj => ?_⟩, hdest, hbyte⟩
  rw [hdest, hsrc]
  exact h.disjoint (c + i) (by omega) (c + j) (by omega)

/-- The loop of `memcpy_dpgs` copies to or from user pages. -/
theorem Copyable.memcpyDpgsLoop {fuel dest src n : ℕ} (h : Copyable roots s cr3a cr3b dest src n) (hfuel : n ≤ fuel)
    (huser : ∀ k < n, ¬ (isPhysical (src + k) = true ∧ isPhysical (dest + k) = true)) :
    ∃ s', Kernel.memcpyDpgsLoop cr3a cr3b fuel s dest src (src % 0x1000) (dest % 0x1000) n = some s' ∧
      Put (fun k => s.place cr3a (dest + k)) n (fun k => s.byteAt (s.place cr3b (src + k))) s s' := by
  induction fuel generalizing s dest src n with
  | zero =>
    obtain rfl : n = 0 := by omega
    exact ⟨s, rfl, .refl s _ _⟩
  | succ fuel ih =>
    unfold Kernel.memcpyDpgsLoop
    by_cases hzero : n = 0
    · rw [if_pos hzero, hzero]
      exact ⟨s, rfl, .refl s _ _⟩
    have hfirst := huser 0 (by omega)
    rw [Nat.add_zero, Nat.add_zero] at hfirst
    have hoffs : src % 0x1000 < 0x1000 := Nat.mod_lt _ (by decide)
    have hoffs2 : dest % 0x1000 < 0x1000 := Nat.mod_lt _ (by decide)
    rw [if_neg hzero, if_neg (by rwa [Bool.and_eq_true])]
    dsimp only
    generalize hmax : (if src % 0x1000 < dest % 0x1000 then 0x1000 - dest % 0x1000 else 0x1000 - src % 0x1000) = maxcpy
    obtain ⟨c, hc⟩ : ∃ c, c = if maxcpy < n then maxcpy else n := ⟨_, rfl⟩
    have hbounds : 0 < c ∧ c ≤ n ∧ dest % 0x1000 + c ≤ 0x1000 ∧ src % 0x1000 + c ≤ 0x1000 := by
      split at hmax <;> split at hc <;> omega
    obtain ⟨hpos, hcn, hpageDest, hpageSrc⟩ := hbounds
    have hdest := h.reachDest.chunk hpos hcn hpageDest
    have hsrc := h.reachSrc.chunk hpos hcn hpageSrc
    obtain ⟨s₁, hcopy, hput⟩ := hdest.memcpy hsrc hpos
    have hfound : s.lookup src cr3b ≠ none ∨ s.lookup dest cr3a ≠ none := by
      rcases hsrc.visible with ⟨hphys, -⟩ | ⟨hlow, hpresent, -⟩
      · rcases hdest.visible with ⟨hphys', -⟩ | ⟨hlow, hpresent, -⟩
        · exact absurd ⟨hphys, hphys'⟩ hfirst
        · right
          rw [Kernel.lookup_present (isPhysical_of_lt hlow) hpresent]
          simp
      · left
        rw [Kernel.lookup_present (isPhysical_of_lt hlow) hpresent]
        simp
    rw [if_pos hfound]
    change ∃ s', ((s.memcpy (s.pointer cr3a dest) (s.pointer cr3b src) _).bind _) = some s' ∧ _
    rw [← hc, hcopy, Option.bind_some]
    by_cases hlast : n ≤ maxcpy
    · rw [if_pos hlast]
      obtain rfl : c = n := by
        rw [if_neg (by omega)] at hc
        exact hc
      exact ⟨s₁, rfl, hput⟩
    · rw [if_neg hlast]
      rw [if_pos (by omega)] at hc
      subst hc
      obtain ⟨hrest, hplaces, hbytes⟩ := h.rest hcn hput
      obtain ⟨s', hloop, hput'⟩ := ih hrest (by omega) fun k hk => by
        rw [Nat.add_assoc, Nat.add_assoc]
        exact huser (c + k) (by omega)
      have hendDest := (h.reachDest.visible c (by omega)).word
      have hendSrc := (h.reachSrc.visible c (by omega)).word
      refine ⟨s', ?_, ?_⟩
      · rw [add64_of_lt hendDest, add64_of_lt hendSrc, sub_align, sub_align]
        exact hloop
      · have hwhole := hput.append (hput'.congr (fun k _ => (hplaces k).symm) fun k hk => ?_)
        · rw [Nat.add_sub_cancel' hcn] at hwhole
          exact hwhole
        · rw [hbytes k hk]

/-- `memcpy_dpgs` copies to or from user pages. -/
theorem Copyable.memcpyDpgs {dest src n : ℕ} (h : Copyable roots s cr3a cr3b dest src n)
    (huser : ∀ k < n, ¬ (isPhysical (src + k) = true ∧ isPhysical (dest + k) = true)) :
    ∃ s', s.memcpyDpgs cr3a cr3b dest src n = some s' ∧
      Put (fun k => s.place cr3a (dest + k)) n (fun k => s.byteAt (s.place cr3b (src + k))) s s' := by
  unfold Kernel.memcpyDpgs
  rw [sub_align, sub_align]
  exact h.memcpyDpgsLoop (Nat.le_refl n) huser

end Memcpy

end Cthulhu
