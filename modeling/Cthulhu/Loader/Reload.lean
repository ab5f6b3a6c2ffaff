import Cthulhu.Loader.Rewrites

/-!
# Loading an image twice

A section header changes in the round of its own section only, and in one of the two passes: the store to its
`sh_offset` or to its `sh_addr` is the last one. So the image is what it was exactly when no round stores another
value than is there.
-/

namespace Cthulhu

open Lib

/-- The bytes of a section header were kept. -/
def HeaderKept (base : ℕ) (header : Elf64Ehdr) (i : ℕ) (s s' : Kernel) : Prop :=
  ∀ k < 64, s'.bytes (base + header.shoff + 64 * i + k) = s.bytes (base + header.shoff + 64 * i + k)

/-- A round of a pass stores nothing in the section's header. -/
def Elf64Shdr.Quiet (sh : Elf64Shdr) (fixed : Bool) : Prop :=
  fixed = decide (sh.shAddr = 0) ∨ fixed = true ∧ sh.shType = shtProgbits

section Header

variable {base pml4 i : ℕ} {header : Elf64Ehdr} {random : ℕ → ℕ} {s s' : Kernel} {b c : LoadState} {r : Bool × ℕ} {w : ℕ}

/-- The address of a byte of a section header. -/
theorem sectionAddress_eq (hend : base + header.shoff + 64 * i + 64 ≤ 2 ^ 64) {k : ℕ} (hk : k < 64) :
    add64 (sectionAddress base header i) k = base + header.shoff + 64 * i + k := by
  have hfirst : add64 base header.shoff = base + header.shoff := add64_of_lt (by omega)
  have hhere : add64 (base + header.shoff) (64 * i) = base + header.shoff + 64 * i := add64_of_lt (by omega)
  unfold sectionAddress
  rw [hfirst, hhere, add64_of_lt (by omega)]

/-- A field of a section header whose bytes are the same. -/
theorem Kernel.headerField_congr (hend : base + header.shoff + 64 * i + 64 ≤ 2 ^ 64) {k len : ℕ} (hk : k < 64)
    (hlen : k + len ≤ 64) (h : ∀ j, k ≤ j → j < k + len →
      s'.bytes (base + header.shoff + 64 * i + j) = s.bytes (base + header.shoff + 64 * i + j)) :
    s'.field (add64 (sectionAddress base header i) k) len = s.field (add64 (sectionAddress base header i) k) len := by
  rw [sectionAddress_eq hend hk]
  refine Kernel.field_congr fun j hj => ?_
  rw [add64_of_lt (by omega), Nat.add_assoc]
  exact h (k + j) (by omega) (by omega)

/-- A header whose bytes were kept reads the same. -/
theorem HeaderKept.sectionAt (h : HeaderKept base header i s s') (hend : base + header.shoff + 64 * i + 64 ≤ 2 ^ 64) :
    s'.sectionAt base header i = s.sectionAt base header i := by
  have hfield {k len : ℕ} (hk : k < 64) (hlen : k + len ≤ 64) :=
    Kernel.headerField_congr hend hk hlen fun j _ hj => h j (by omega)
  unfold Kernel.sectionAt Kernel.elfSection
  rw [hfield (show 4 < 64 by decide) (by decide), hfield (show 8 < 64 by decide) (by decide),
    hfield (show 16 < 64 by decide) (by decide), hfield (show 24 < 64 by decide) (by decide),
    hfield (show 32 < 64 by decide) (by decide), hfield (show 48 < 64 by decide) (by decide)]

/-- Another field than the one that was stored. -/
theorem Kernel.headerField_apart (hend : base + header.shoff + 64 * i + 64 ≤ 2 ^ 64) {f k len : ℕ} (hf : f + 8 ≤ 64)
    (hk : k < 64) (hlen : k + len ≤ 64) (hout : k + len ≤ f ∨ f + 8 ≤ k)
    (h : s'.bytes = (s.setField (add64 (sectionAddress base header i) f) w).bytes) :
    s'.field (add64 (sectionAddress base header i) k) len = s.field (add64 (sectionAddress base header i) k) len := by
  refine Kernel.headerField_congr hend hk hlen fun j hlow hhigh => ?_
  rw [h, sectionAddress_eq hend (by omega), Kernel.setField_bytes s (by omega) (by omega)]

/-- The field that was stored. -/
theorem Kernel.headerField_stored (hend : base + header.shoff + 64 * i + 64 ≤ 2 ^ 64) (hw : w < 2 ^ 64) {f : ℕ}
    (hf : f + 8 ≤ 64) (h : s'.bytes = (s.setField (add64 (sectionAddress base header i) f) w).bytes) :
    s'.field (add64 (sectionAddress base header i) f) 8 = w := by
  have hword : add64 (sectionAddress base header i) f + 8 ≤ 2 ^ 64 := by
    rw [sectionAddress_eq hend (by omega)]
    omega
  exact (Kernel.field_congr fun k _ => by rw [h]).trans (Kernel.field_setField s hword hw)

/-- The header after a store to its `sh_offset`. -/
theorem Kernel.sectionAt_setOffset (hend : base + header.shoff + 64 * i + 64 ≤ 2 ^ 64) (hw : w < 2 ^ 64)
    (h : s'.bytes = (s.setField (add64 (sectionAddress base header i) 24) w).bytes) :
    s'.sectionAt base header i = { s.sectionAt base header i with shOffset := w } := by
  have hfield {k len : ℕ} (hk : k < 64) (hlen : k + len ≤ 64) (hout : k + len ≤ 24 ∨ 32 ≤ k) :=
    Kernel.headerField_apart hend (by decide) hk hlen hout h
  unfold Kernel.sectionAt Kernel.elfSection
  rw [hfield (show 4 < 64 by decide) (by decide) (by decide), hfield (show 8 < 64 by decide) (by decide) (by decide),
    hfield (show 16 < 64 by decide) (by decide) (by decide), Kernel.headerField_stored hend hw (by decide) h,
    hfield (show 32 < 64 by decide) (by decide) (by decide), hfield (show 48 < 64 by decide) (by decide) (by decide)]

/-- The header after a store to its `sh_addr`. -/
theorem Kernel.sectionAt_setAddr (hend : base + header.shoff + 64 * i + 64 ≤ 2 ^ 64) (hw : w < 2 ^ 64)
    (h : s'.bytes = (s.setField (add64 (sectionAddress base header i) 16) w).bytes) :
    s'.sectionAt base header i = { s.sectionAt base header i with shAddr := w } := by
  have hfield {k len : ℕ} (hk : k < 64) (hlen : k + len ≤ 64) (hout : k + len ≤ 16 ∨ 24 ≤ k) :=
    Kernel.headerField_apart hend (by decide) hk hlen hout h
  unfold Kernel.sectionAt Kernel.elfSection
  rw [hfield (show 4 < 64 by decide) (by decide) (by decide), hfield (show 8 < 64 by decide) (by decide) (by decide),
    Kernel.headerField_stored hend hw (by decide) h, hfield (show 24 < 64 by decide) (by decide) (by decide),
    hfield (show 32 < 64 by decide) (by decide) (by decide), hfield (show 48 < 64 by decide) (by decide) (by decide)]

/-- A section that is placed is loaded, by the pass that its address says. -/
theorem Elf64Shdr.placement_pass {sh : Elf64Shdr} {areas areas' : List MmapArea} {fixed : Bool} {x : ℕ} {area : MmapArea}
    (h : sh.placement areas fixed x = .place area areas') : fixed ≠ decide (sh.shAddr = 0) := by
  unfold Elf64Shdr.placement at h
  split at h
  · exact absurd h (by simp)
  · rename_i hpass
    exact fun heq => hpass (Or.inr heq)

/-- A place is a word, if the addresses of the areas are. -/
theorem Elf64Shdr.placement_lt {sh : Elf64Shdr} {areas areas' : List MmapArea} {x : ℕ} {area : MmapArea}
    (h : sh.placement areas false x = .place area areas') : area.vastart < 2 ^ 64 := by
  unfold Elf64Shdr.placement at h
  split at h
  · exact absurd h (by simp)
  rw [if_neg (by decide)] at h
  split at h
  · exact absurd h (by simp)
  · rw [← (Placement.place.inj h).1]
    exact add64_lt _ _

/-- A round keeps a header that is another section's, or for which it is quiet. -/
theorem LoadState.loadRound_header (hend : base + header.shoff + 64 * header.shnum ≤ 2 ^ 64) (hi : i < header.shnum)
    (hr : r.2 < header.shnum)
    (hbelow : ∀ area areas, b.roundPlacement base header random r = .place area areas → area.BelowKernel)
    (hok : b.loadRound base pml4 header random r = .ok c)
    (hquiet : r.2 = i → (b.kernel.sectionAt base header i).Quiet r.1) : HeaderKept base header i b.kernel c.kernel := by
  have hother {f w : ℕ} (hf : f + 8 ≤ 64)
      (hstore : c.kernel.bytes = (b.kernel.setField (add64 (sectionAddress base header r.2) f) w).bytes) (hne : r.2 ≠ i) :
      HeaderKept base header i b.kernel c.kernel := by
    intro k hk
    rw [hstore, sectionAddress_eq (by omega) (by omega), Kernel.setField_bytes _ (by omega) (by omega)]
  rcases LoadState.loadRound_bytes hbelow hok with ⟨-, hsame⟩ | ⟨area, areas, hplace, ⟨htype, hstore⟩ | ⟨htype, hstore⟩⟩
  · intro k _
    rw [hsame]
  · refine hother (by decide) hstore fun heq => ?_
    subst heq
    rcases hquiet rfl with hpass | ⟨-, hprogbits⟩
    · exact Elf64Shdr.placement_pass hplace hpass
    · rw [htype] at hprogbits
      exact absurd hprogbits (by decide)
  · cases hpass : r.1 with
    | true =>
      rw [hpass, if_pos rfl] at hstore
      intro k _
      rw [hstore]
    | false =>
      rw [hpass, if_neg (by decide)] at hstore
      refine hother (by decide) hstore fun heq => ?_
      subst heq
      rcases hquiet rfl with hskip | ⟨htrue, -⟩
      · exact Elf64Shdr.placement_pass hplace hskip
      · rw [hpass] at htrue
        exact absurd htrue (by decide)

/-- A section that is rewritten in a pass is not looked at in the other one. -/
theorem Elf64Shdr.Rewritten.other_pass {sh : Elf64Shdr} {areas : List MmapArea} {fixed : Bool} {x : ℕ}
    (h : sh.Rewritten base areas fixed x) : (!fixed) = decide (sh.shAddr = 0) := by
  unfold Elf64Shdr.Rewritten at h
  split at h
  · rename_i hplace
    have hpass := Elf64Shdr.placement_pass hplace
    cases fixed <;> simp_all
  · exact h.elim

/-- The loader rewrites no header when every section has file bytes and an address. -/
theorem LoadState.keepsHeaders_of_fixed {st : LoadState}
    (h : ∀ i < (st.kernel.elfHeader base).shnum, (st.kernel.sectionAt base (st.kernel.elfHeader base) i).shType ≠ shtNobits ∧
      (st.kernel.sectionAt base (st.kernel.elfHeader base) i).shAddr ≠ 0) : st.KeepsHeaders base pml4 random := by
  intro _ r b c hreached _ hrewritten
  obtain ⟨htype, haddr⟩ := h r.2 (lt_of_mem_loadRounds hreached.mem)
  have hpass := hrewritten.other_pass
  unfold Elf64Shdr.Rewritten at hrewritten
  split at hrewritten
  · rcases hrewritten with ⟨hnobits, -⟩ | ⟨-, hfloating, -⟩
    · exact htype hnobits
    · rw [hfloating, decide_eq_false haddr] at hpass
      exact absurd hpass (by decide)
  · exact hrewritten

/-- A round that rewrites its section's header leaves another one there, for which the other pass is quiet. -/
theorem LoadState.loadRound_rewritten (hend : base + header.shoff + 64 * header.shnum ≤ 2 ^ 64)
    (hr : r.2 < header.shnum)
    (hbelow : ∀ area areas, b.roundPlacement base header random r = .place area areas → area.BelowKernel)
    (hok : b.loadRound base pml4 header random r = .ok c)
    (hrewritten : (b.kernel.sectionAt base header r.2).Rewritten base b.areas r.1 (random r.2)) :
    c.kernel.sectionAt base header r.2 ≠ b.kernel.sectionAt base header r.2 ∧
      (c.kernel.sectionAt base header r.2).Quiet (!r.1) := by
  have hhere : base + header.shoff + 64 * r.2 + 64 ≤ 2 ^ 64 := by omega
  unfold Elf64Shdr.Rewritten at hrewritten
  rcases LoadState.loadRound_bytes hbelow hok with ⟨hskip, -⟩ | ⟨area, areas, hplace, hstore⟩
  · unfold LoadState.roundPlacement at hskip
    rw [hskip] at hrewritten
    exact hrewritten.elim
  unfold LoadState.roundPlacement at hplace
  rw [hplace] at hrewritten
  dsimp only at hrewritten
  have hpass := Elf64Shdr.placement_pass hplace
  rcases hstore with ⟨htype, hstore⟩ | ⟨htype, hstore⟩
  · obtain ⟨-, hne⟩ : _ ∧ _ := hrewritten.resolve_right fun hprogbits => absurd (htype.symm.trans hprogbits.1) (by decide)
    have hword : sub64 base area.vastart < 2 ^ 64 := by
      unfold sub64
      split <;> omega
    rw [Kernel.sectionAt_setOffset hhere hword hstore]
    refine ⟨fun heq => hne (congrArg Elf64Shdr.shOffset heq).symm, Or.inl ?_⟩
    dsimp only
    cases hfixed : r.1 <;> simp_all
  · obtain ⟨-, hfloating, hne⟩ : _ ∧ _ := hrewritten.resolve_left fun hnobits =>
      absurd (htype.symm.trans hnobits.1) (by decide)
    rw [hfloating] at hplace hstore ⊢
    rw [Kernel.sectionAt_setAddr hhere (Elf64Shdr.placement_lt hplace) hstore]
    exact ⟨fun heq => hne (congrArg Elf64Shdr.shAddr heq).symm, Or.inr ⟨rfl, htype⟩⟩

end Header

/-- Headers kept one after the other. -/
theorem HeaderKept.trans {base i : ℕ} {header : Elf64Ehdr} {s₁ s₂ s₃ : Kernel} (h : HeaderKept base header i s₁ s₂)
    (h' : HeaderKept base header i s₂ s₃) : HeaderKept base header i s₁ s₃ := fun k hk => (h' k hk).trans (h k hk)

/-- Rounds other than a section's own keep its header, if it is quiet in the other pass. -/
theorem LoadState.PlacedBelow.rounds_header {st a : LoadState} {base pml4 stackRandom : ℕ} {random : ℕ → ℕ}
    (hbelow : st.PlacedBelow base pml4 random stackRandom) {r : Bool × ℕ}
    (hend : base + (st.kernel.elfHeader base).shoff + 64 * (st.kernel.elfHeader base).shnum ≤ 2 ^ 64)
    (hr : r.2 < (st.kernel.elfHeader base).shnum) {rounds : List (Bool × ℕ)} (hrounds : r ∉ rounds)
    (hreaches : ∀ r' b, GetsTo (loadRound base pml4 (st.kernel.elfHeader base) random) a rounds r' b →
      st.Reaches base pml4 random r' b)
    (hquiet : (a.kernel.sectionAt base (st.kernel.elfHeader base) r.2).Quiet (!r.1)) :
    (∀ b, rounds.foldlM (loadRound base pml4 (st.kernel.elfHeader base) random) a = .ok b →
        HeaderKept base (st.kernel.elfHeader base) r.2 a.kernel b.kernel) ∧
      ∀ e, rounds.foldlM (loadRound base pml4 (st.kernel.elfHeader base) random) a = .error e →
        HeaderKept base (st.kernel.elfHeader base) r.2 a.kernel e.2.kernel := by
  refine foldlM_ends (f := loadRound base pml4 (st.kernel.elfHeader base) random) (fun b : LoadState => HeaderKept base (st.kernel.elfHeader base) r.2 a.kernel b.kernel)
    (fun e : Option ElfError × LoadState => HeaderKept base (st.kernel.elfHeader base) r.2 a.kernel e.2.kernel)
    (fun r' b c hreached hok hkept => hkept.trans ?_)
    (fun r' b e _ hstop hkept => hkept.trans fun k _ => congrFun (LoadState.loadRound_stopped hstop) _) fun _ _ => rfl
  have hthere := hreaches r' b hreached
  refine LoadState.loadRound_header hend hr (lt_of_mem_loadRounds hthere.mem) (hbelow.1 r' b hthere) hok fun heq => ?_
  have hpass : r'.1 = !r.1 := by
    have hne : r'.1 ≠ r.1 := fun h => hrounds (Prod.ext h heq ▸ hreached.mem)
    cases h : r'.1 <;> cases h' : r.1 <;> simp_all
  rw [hkept.sectionAt (by omega), hpass]
  exact hquiet

/-- A load below the mirror that leaves the bytes of the image rewrites no header. -/
theorem LoadState.PlacedBelow.keepsHeaders {st : LoadState} {base pml4 stackRandom size : ℕ} {random : ℕ → ℕ}
    (hbelow : st.PlacedBelow base pml4 random stackRandom) (htable : st.TableInside base size) {thread : MainThread}
    (hbytes : ∀ k < size, (st.loadElfExec base pml4 random stackRandom thread).state.kernel.bytes (add64 base k) =
      st.kernel.bytes (add64 base k)) : st.KeepsHeaders base pml4 random := by
  intro haccepts r b c hreached hok hrewritten
  obtain ⟨before, after, hrounds, hbefore⟩ := id hreached
  have hr := lt_of_mem_loadRounds hreached.mem
  have hfile := htable.1
  have hsize := htable.2
  have hend : base + (st.kernel.elfHeader base).shoff + 64 * (st.kernel.elfHeader base).shnum ≤ 2 ^ 64 := by omega
  have hhere : base + (st.kernel.elfHeader base).shoff + 64 * r.2 + 64 ≤ 2 ^ 64 := by omega
  have hnodup := loadRounds_nodup (st.kernel.elfHeader base)
  rw [hrounds, List.nodup_append] at hnodup
  -- the header is that of the image when the loader gets to the round
  have hfirst : HeaderKept base (st.kernel.elfHeader base) r.2 st.kernel b.kernel := by
    have hkept := hbelow.rounds_header hend hr (fun hmem => hnodup.2.2 r hmem r (by simp) rfl)
      (fun r' b' hreached' => by
        have happend := hreached'.append (r :: after)
        rwa [← hrounds] at happend)
      (Or.inl (Elf64Shdr.Rewritten.other_pass hrewritten))
    exact hkept.1 b hbefore
  rw [← hfirst.sectionAt hhere] at hrewritten
  obtain ⟨hchanged, hquiet⟩ := LoadState.loadRound_rewritten hend hr (hbelow.1 r b hreached) hok hrewritten
  -- and stays what the round made of it
  have hlast : HeaderKept base (st.kernel.elfHeader base) r.2 c.kernel
      (st.loadElfExec base pml4 random stackRandom thread).state.kernel := by
    have hkept := hbelow.rounds_header hend hr (List.nodup_cons.mp hnodup.2.1).1
      (fun r' b' hreached' => by
        have hbehind := hreached'.behind hbefore hok
        rwa [← hrounds] at hbehind)
      hquiet
    intro k hk
    rw [LoadState.loadElfExec_bytes thread haccepts hbelow.2, LoadState.loadElfStageOne_eq, hrounds,
      foldlM_append_ok hbefore, foldlM_cons_ok hok]
    split
    · rename_i b' hloop
      exact hkept.1 b' hloop k hk
    · rename_i e b' hloop
      exact hkept.2 (e, b') hloop k hk
  refine hchanged ?_
  rw [← hlast.sectionAt hhere, hfirst.sectionAt hhere]
  refine HeaderKept.sectionAt (fun k hk => ?_) hhere
  have hbyte := hbytes ((st.kernel.elfHeader base).shoff + 64 * r.2 + k) (by omega)
  rw [add64_of_lt (by omega), ← Nat.add_assoc, ← Nat.add_assoc] at hbyte
  exact hbyte

/-- When a load leaves its image as it was. What the loader fills lies below the kernel's mirror and no section's
header is rewritten: this is enough; and where what is filled lies below the mirror and the section headers inside
the image, it is also necessary that no header is rewritten. -/
theorem loadElfExec_leavesImage (st : LoadState) (base pml4 : ℕ) (random : ℕ → ℕ) (stackRandom : ℕ) (thread : MainThread)
    (size : ℕ) (hbytes : ∀ x, st.kernel.bytes x < 256) :
    (st.PlacedBelow base pml4 random stackRandom ∧ st.KeepsHeaders base pml4 random →
      st.LeavesImage base pml4 random stackRandom thread size) ∧
    (st.PlacedBelow base pml4 random stackRandom → st.TableInside base size →
      st.LeavesImage base pml4 random stackRandom thread size → st.KeepsHeaders base pml4 random) := by
  refine ⟨fun ⟨hbelow, hkeeps⟩ => ?_, fun hbelow htable hleaves => hbelow.keepsHeaders htable hleaves.bytes⟩
  have hsame := hkeeps.bytes hbelow hbytes thread
  exact ⟨fun k _ => by rw [hsame], fun m areas pml4' random' stackRandom' thread' => by rw [hsame]⟩

/-- A blank machine with a file of these bytes at a kernel address, and a process without areas. -/
def fileLoad (file : List (ℕ × ℕ)) : LoadState where
  kernel := ⟨blankMachine, fun a => (file.lookup (a - 0xFFFF900000000000)).getD 0 % 256⟩
  areas := []

/-- An executable with one section of 16 bytes at `0x400000`, of a type. -/
def oneSectionFile (type : ℕ) : List (ℕ × ℕ) :=
  [(0, 0x7F), (1, 0x45), (2, 0x4C), (3, 0x46), (4, 2), (5, 1), (16, 2), (18, 62), (20, 1), (40, 64), (60, 1),
    (68, type), (72, 2), (82, 0x40), (88, 128), (96, 16)]

/-- The load of a file whose only section has file bytes leaves the file as it was. -/
theorem loadElfExec_leavesImage_progbits : (fileLoad (oneSectionFile shtProgbits)).LeavesImage 0xFFFF900000000000 0x100000
    (fun _ => 0) 0 ⟨0, 0, 0, 0⟩ 144 := by
  have hsection : (fileLoad (oneSectionFile shtProgbits)).kernel.sectionAt 0xFFFF900000000000
      ((fileLoad (oneSectionFile shtProgbits)).kernel.elfHeader 0xFFFF900000000000) 0 =
        ⟨shtProgbits, 2, 0x400000, 128, 16, 0⟩ := by decide +kernel
  have hrounds : loadRounds ((fileLoad (oneSectionFile shtProgbits)).kernel.elfHeader 0xFFFF900000000000) =
      [(true, 0), (false, 0)] := by decide +kernel
  have hplaced : Elf64Shdr.placement ⟨shtProgbits, 2, 0x400000, 128, 16, 0⟩ [] true 0 =
      .place (newArea 0x400000 0x400010) [newArea 0x400000 0x400010] := by decide +kernel
  have hskip : (false : Bool) = decide ((0x400000 : ℕ) = 0) := by decide
  have hsecond : ((fileLoad (oneSectionFile shtProgbits)).loadRound 0xFFFF900000000000 0x100000
      ((fileLoad (oneSectionFile shtProgbits)).kernel.elfHeader 0xFFFF900000000000) (fun _ => 0) (true, 0)).toOption.map
        (fun b => b.kernel.sectionAt 0xFFFF900000000000
          ((fileLoad (oneSectionFile shtProgbits)).kernel.elfHeader 0xFFFF900000000000) 0) =
      some ⟨shtProgbits, 2, 0x400000, 128, 16, 0⟩ := by decide +kernel
  have hareas : ((fileLoad (oneSectionFile shtProgbits)).loadElfGeneral 0xFFFF900000000000 0x100000
      fun _ => 0).2.areas = [newArea 0x400000 0x400010] := by decide +kernel
  refine (loadElfExec_leavesImage _ _ _ _ _ _ _ fun x => Nat.mod_lt _ (by decide)).1 ⟨⟨?_, fun b hb => ?_⟩, ?_⟩
  · rintro r b ⟨before, after, hlist, hbefore⟩ area areas hplace
    rw [hrounds] at hlist
    match before, hlist with
    | [], hlist =>
      obtain rfl := Except.ok.inj hbefore
      obtain rfl := (List.cons.inj hlist).1
      unfold LoadState.roundPlacement at hplace
      rw [hsection] at hplace
      obtain ⟨rfl, -⟩ := Placement.place.inj (hplaced.symm.trans hplace)
      decide
    | [first], hlist =>
      obtain ⟨rfl, hrest⟩ := List.cons.inj hlist
      obtain rfl := (List.cons.inj hrest).1
      obtain ⟨c, hfirst, hhere⟩ := Option.map_eq_some_iff.mp hsecond
      cases hround : (fileLoad (oneSectionFile shtProgbits)).loadRound 0xFFFF900000000000 0x100000
        ((fileLoad (oneSectionFile shtProgbits)).kernel.elfHeader 0xFFFF900000000000) (fun _ => 0) (true, 0) with
      | error e =>
        rw [foldlM_cons_error hround] at hbefore
        exact absurd hbefore (by simp)
      | ok d =>
        rw [foldlM_cons_ok hround] at hbefore
        rw [hround] at hfirst
        obtain rfl : d = b := Except.ok.inj hbefore
        obtain rfl : d = c := Option.some.inj hfirst
        unfold LoadState.roundPlacement at hplace
        rw [hhere] at hplace
        exact absurd hskip (Elf64Shdr.placement_pass hplace)
    | first :: second :: before, hlist => exact absurd (congrArg List.length hlist) (by simp)
  · rw [hb] at hareas
    rw [show b.areas = [newArea 0x400000 0x400010] from hareas]
    decide +kernel
  · refine LoadState.keepsHeaders_of_fixed fun i hi => ?_
    obtain rfl : i = 0 := Nat.lt_one_iff.mp (hi.trans_le (by decide +kernel))
    rw [hsection]
    exact ⟨by decide, by decide⟩

/-- The load of a file whose only section has no file bytes changes the file. -/
theorem loadElfExec_rewrites : ¬ (fileLoad (oneSectionFile shtNobits)).LeavesImage 0xFFFF900000000000 0x100000
    (fun _ => 0) 0 ⟨0, 0, 0, 0⟩ 144 := by
  intro hleaves
  have hareas : ((fileLoad (oneSectionFile shtNobits)).loadElfGeneral 0xFFFF900000000000 0x100000
      fun _ => 0).2.areas = [newArea 0x400000 0x400010] := by decide +kernel
  have hbyte := hleaves.bytes 90 (by decide)
  rw [LoadState.loadElfExec_bytes _ ⟨by decide +kernel, by decide +kernel⟩ fun b hb => ?_] at hbyte
  · exact absurd hbyte (by decide +kernel)
  · rw [hb] at hareas
    rw [show b.areas = [newArea 0x400000 0x400010] from hareas]
    decide +kernel

end Cthulhu
