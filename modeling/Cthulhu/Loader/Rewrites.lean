import Cthulhu.Loader.Exec

/-!
# What the loader does to the image

The loader works on the image in place. It stores a new `sh_offset` for each section without file bytes that it
fills, and the place of each section that it copies to a place of its own choice. A header that holds another
value afterwards is what the next load of the image reads: it finds an address where there was none.
-/

namespace Cthulhu

open Lib

/-- Where the addresses of the kernel's own mirror start. -/
def kernelStart : ℕ := 0xFFFF000000000000

/-- The bytes that are filled for the area lie below the kernel's mirror. -/
def MmapArea.BelowKernel (area : MmapArea) : Prop :=
  area.vastart + sub64 area.vaend area.vastart ≤ kernelStart

instance MmapArea.BelowKernel.decidable (area : MmapArea) : Decidable area.BelowKernel :=
  inferInstanceAs (Decidable (_ ≤ _))

/-- The section's round puts another value into its header than is there. -/
def Elf64Shdr.Rewritten (sh : Elf64Shdr) (base : ℕ) (areas : List MmapArea) (fixed : Bool) (random : ℕ) : Prop :=
  match sh.placement areas fixed random with
  | .place area _ =>
    sh.shType = shtNobits ∧ sh.shOffset ≠ sub64 base area.vastart ∨
      sh.shType = shtProgbits ∧ fixed = false ∧ sh.shAddr ≠ area.vastart
  | _ => False

namespace LoadState

variable (st : LoadState) (base pml4 : ℕ) (random : ℕ → ℕ) (stackRandom : ℕ)

/-- The header is accepted, so that the loader goes on to the sections. -/
def Accepts : Prop :=
  checkElfHeader (st.kernel.elfHeader base) = .loadSuccess ∧ (st.kernel.elfHeader base).type = etExec

/-- The first stage gets to a round in a state. -/
def Reaches (r : Bool × ℕ) (b : LoadState) : Prop :=
  GetsTo (loadRound base pml4 (st.kernel.elfHeader base) random) st (loadRounds (st.kernel.elfHeader base)) r b

/-- What the loader fills, for sections and for the stack, lies below the kernel's mirror. -/
def PlacedBelow : Prop :=
  (∀ r b, st.Reaches base pml4 random r b → ∀ area areas,
      b.roundPlacement base (st.kernel.elfHeader base) random r = .place area areas → area.BelowKernel) ∧
    ∀ b, st.loadElfGeneral base pml4 random = (some .loadSuccess, b) →
      (stackArea b.areas stackRandom).vastart + baseStackSize ≤ kernelStart

/-- No section that the loader gets to and fills has its header rewritten. -/
def KeepsHeaders : Prop :=
  st.Accepts base → ∀ r b b', st.Reaches base pml4 random r b →
    b.loadRound base pml4 (st.kernel.elfHeader base) random r = .ok b' →
    ¬ (st.kernel.sectionAt base (st.kernel.elfHeader base) r.2).Rewritten base b.areas r.1 (random r.2)

/-- The load leaves every byte of an image of a size as it was, and a load of the image by another process, with any
memory and areas, does what it would have done before. -/
structure LeavesImage (thread : MainThread) (size : ℕ) : Prop where
  bytes : ∀ k < size, (st.loadElfExec base pml4 random stackRandom thread).state.kernel.bytes (add64 base k) =
    st.kernel.bytes (add64 base k)
  again : ∀ m areas pml4' random' stackRandom' thread',
    loadElfExec ⟨⟨m, (st.loadElfExec base pml4 random stackRandom thread).state.kernel.bytes⟩, areas⟩ base pml4' random'
        stackRandom' thread' =
      loadElfExec ⟨⟨m, st.kernel.bytes⟩, areas⟩ base pml4' random' stackRandom' thread'

/-- The section headers lie inside an image of a size, which does not wrap around the address space. -/
def TableInside (size : ℕ) : Prop :=
  (st.kernel.elfHeader base).shoff + 64 * (st.kernel.elfHeader base).shnum ≤ size ∧ base + size ≤ 2 ^ 64

end LoadState

section Below

variable {s s' : Kernel} {a n v cr3 cr3' : ℕ} {source : ℕ → ℕ}

/-- An address below the mirror is not the kernel's. -/
theorem isPhysical_below (h : a < kernelStart) : isPhysical a = false := decide_eq_false (Nat.not_le.mpr h)

/-- A byte written below the mirror is not the kernel's. -/
theorem Kernel.writeByte_below (ha : a < kernelStart) (h : s.writeByte a v = some s') : s'.bytes = s.bytes := by
  unfold Kernel.writeByte at h
  rw [isPhysical_below ha, if_neg (by decide)] at h
  dsimp only at h
  split at h
  · rw [← Option.some.inj h]
    rfl
  · exact absurd h (by simp)

/-- Bytes written below the mirror are not the kernel's. -/
theorem Kernel.write_below (ha : a + n ≤ kernelStart) (h : s.write (.address a) n source = some s') :
    s'.bytes = s.bytes := by
  have hkernel : kernelStart < 2 ^ 64 := by decide
  have hloop (l : List ℕ) (hl : ∀ k ∈ l, k < n) (s : Kernel)
      (h : l.foldlM (fun s k => s.writeByte (add64 a k) (source k)) s = some s') : s'.bytes = s.bytes := by
    induction l generalizing s with
    | nil =>
      rw [← Option.some.inj h]
    | cons k l ih =>
      rw [List.forall_mem_cons] at hl
      have hk := hl.1
      rw [List.foldlM_cons] at h
      obtain ⟨s₁, hfirst, hrest⟩ := Option.bind_eq_some_iff.mp h
      rw [ih hl.2 s₁ hrest, Kernel.writeByte_below (by rw [add64_of_lt (by omega)]; omega) hfirst]
  exact hloop (List.range n) (fun k hk => List.mem_range.mp hk) s h

/-- Bytes written to a page of a frame, the null frame too, are not the kernel's. -/
theorem Kernel.write_frame {frame offs : ℕ} (hoffs : offs + n ≤ 0x1000)
    (h : s.write (frameMemory frame offs) n source = some s') : s'.bytes = s.bytes := by
  unfold frameMemory at h
  split at h
  · exact Kernel.write_below (hoffs.trans (by decide)) h
  · rw [← Option.some.inj h]
    rfl

/-- `memcpy` is a write of what it read. -/
theorem Kernel.memcpy_write {dest src : Pointer} (h : s.memcpy dest src n = some s') :
    ∃ source, s.write dest n source = some s' := by
  unfold Kernel.memcpy at h
  split at h
  · exact ⟨_, h⟩
  · exact absurd h (by simp)

/-- The loop of `memset_dpgs` below the mirror leaves the kernel's bytes. -/
theorem Kernel.memsetDpgsLoop_below (fuel : ℕ) {offs : ℕ} (hoffs : offs < 0x1000) (hend : a + n ≤ kernelStart)
    (h : s.memsetDpgsLoop cr3 v fuel a offs n = some s') : s'.bytes = s.bytes := by
  have hkernel : kernelStart < 2 ^ 64 := by decide
  induction fuel generalizing s a offs n with
  | zero => rw [← Option.some.inj h]
  | succ fuel ih =>
    rw [Kernel.memsetDpgsLoop] at h
    split at h
    · rw [← Option.some.inj h]
    rw [isPhysical_below (by omega), if_neg (by decide)] at h
    split at h
    · rw [← Option.some.inj h]
    obtain ⟨s₁, hset, hrest⟩ := Option.bind_eq_some_iff.mp h
    have hchunk : s₁.bytes = s.bytes := Kernel.write_frame (by split <;> omega) hset
    split at hrest
    · rw [← Option.some.inj hrest, hchunk]
    · rw [ih (by decide) (by rw [add64_of_lt (by omega)]; omega) hrest, hchunk]

/-- `memset_dpgs` of a range below the mirror leaves the kernel's bytes. -/
theorem Kernel.memsetDpgs_below (hend : a + n ≤ kernelStart) (h : s.memsetDpgs cr3 a v n = some s') :
    s'.bytes = s.bytes :=
  Kernel.memsetDpgsLoop_below n (by have := align_le a; omega) hend h

/-- The loop of `memcpy_dpgs` to a range below the mirror leaves the kernel's bytes. -/
theorem Kernel.memcpyDpgsLoop_below (fuel : ℕ) {src offs offs' : ℕ} (hoffs : offs < 0x1000) (hoffs' : offs' < 0x1000)
    (hend : a + n ≤ kernelStart) (h : s.memcpyDpgsLoop cr3 cr3' fuel a src offs offs' n = some s') :
    s'.bytes = s.bytes := by
  have hkernel : kernelStart < 2 ^ 64 := by decide
  induction fuel generalizing s a src offs offs' n with
  | zero => rw [← Option.some.inj h]
  | succ fuel ih =>
    rw [Kernel.memcpyDpgsLoop] at h
    split at h
    · rw [← Option.some.inj h]
    rw [isPhysical_below (a := a) (by omega), Bool.and_false, if_neg (by decide)] at h
    dsimp only at h
    generalize hmax : (if offs < offs' then 0x1000 - offs' else 0x1000 - offs) = maxcpy at h
    have hle : maxcpy ≤ 0x1000 - offs' := by
      rw [← hmax]
      split <;> omega
    split at h
    · obtain ⟨s₁, hcopy, hrest⟩ := Option.bind_eq_some_iff.mp h
      have hchunk : s₁.bytes = s.bytes := by
        obtain ⟨source, hwrite⟩ := Kernel.memcpy_write hcopy
        cases hlookup : s.lookup a cr3 with
        | none =>
          rw [hlookup] at hwrite
          refine Kernel.write_below ?_ hwrite
          split <;> omega
        | some entry =>
          rw [hlookup] at hwrite
          refine Kernel.write_frame ?_ hwrite
          split <;> omega
      split at hrest
      · rw [← Option.some.inj hrest, hchunk]
      have hpage (x : ℕ) : x - align x < 0x1000 := by
        have := align_le x
        omega
      refine (ih (hpage _) (hpage _) ?_ hrest).trans hchunk
      rw [add64_of_lt (by omega)]
      omega
    · rw [← Option.some.inj h]

/-- `memcpy_dpgs` to a range below the mirror leaves the kernel's bytes. -/
theorem Kernel.memcpyDpgs_below {src : ℕ} (hend : a + n ≤ kernelStart) (h : s.memcpyDpgs cr3 cr3' a src n = some s') :
    s'.bytes = s.bytes := by
  have hpage (x : ℕ) : x - align x < 0x1000 := by
    have := align_le x
    omega
  exact Kernel.memcpyDpgsLoop_below n (hpage _) (hpage _) hend h

end Below

section Stores

variable {s s' : Kernel} {a w : ℕ}

/-- A store of the bytes that are there changes nothing. -/
theorem Kernel.setField_same (h : ∀ k < 8, s.bytes (add64 a k) = byteOf w k) : (s.setField a w).bytes = s.bytes := by
  have hfold (l : List ℕ) (hl : ∀ k ∈ l, k < 8) :
      l.foldl (fun b k => Function.update b (add64 a k) (byteOf w k)) s.bytes = s.bytes := by
    induction l with
    | nil => rfl
    | cons k l ih =>
      rw [List.forall_mem_cons] at hl
      rw [List.foldl_cons, ← h k hl.1, Function.update_eq_self]
      exact ih hl.2
  exact hfold (List.range 8) fun k hk => List.mem_range.mp hk

/-- A store puts its bytes. -/
theorem Kernel.setField_inside (s : Kernel) {k : ℕ} (hword : a + 8 ≤ 2 ^ 64) (hk : k < 8) :
    (s.setField a w).bytes (a + k) = byteOf w k := by
  have haddr (k : ℕ) (hk : k < 8) : add64 a k = a + k := add64_of_lt (by omega)
  unfold Kernel.setField
  simp only [List.range_succ, List.range_zero, List.nil_append, List.cons_append, List.foldl_cons, List.foldl_nil]
  rw [haddr 0 (by decide), haddr 1 (by decide), haddr 2 (by decide), haddr 3 (by decide), haddr 4 (by decide),
    haddr 5 (by decide), haddr 6 (by decide), haddr 7 (by decide)]
  match k, hk with
  | 0, _ | 1, _ | 2, _ | 3, _ | 4, _ | 5, _ | 6, _ | 7, _ => simp

/-- The field that was stored. -/
theorem Kernel.field_setField (s : Kernel) (hword : a + 8 ≤ 2 ^ 64) (hw : w < 2 ^ 64) :
    (s.setField a w).field a 8 = w := by
  have hbytes : leWord (fun k => (s.setField a w).bytes (add64 a k)) 8 = leWord (byteOf w) 8 := leWord_congr fun k hk => by
    rw [add64_of_lt (by omega)]
    exact Kernel.setField_inside s hword hk
  unfold Kernel.field
  rw [hbytes, leWord_byteOf]
  exact Nat.mod_eq_of_lt hw

/-- A store of the field that is there changes nothing. -/
theorem Kernel.setField_field (hbytes : ∀ x, s.bytes x < 256) (hfield : s.field a 8 = w) :
    (s.setField a w).bytes = s.bytes := by
  refine Kernel.setField_same fun k hk => ?_
  rw [← hfield, Kernel.field, byteOf_leWord _ hk, Nat.mod_eq_of_lt (hbytes _)]

end Stores

section Fill

variable {base pml4 : ℕ} {header : Elf64Ehdr} {random : ℕ → ℕ} {st st' : LoadState} {address : ℕ} {area : MmapArea}
  {fixed : Bool}

/-- What filling an area below the mirror does to the kernel's bytes: a store to the section header, or nothing. -/
theorem LoadState.fillSection_bytes (hbelow : area.BelowKernel)
    (hok : st.fillSection base pml4 address area fixed = .ok st') :
    (st.kernel.elfSection address).shType = shtNobits ∧
        st'.kernel.bytes = (st.kernel.setField (add64 address 24) (sub64 base area.vastart)).bytes ∨
      (st.kernel.elfSection address).shType = shtProgbits ∧
        st'.kernel.bytes = if fixed then st.kernel.bytes else (st.kernel.setField (add64 address 16) area.vastart).bytes := by
  unfold LoadState.fillSection at hok
  dsimp only at hok
  split at hok
  · exact absurd hok (by simp)
  split at hok
  · rename_i htype
    unfold LoadState.resume at hok
    cases hset : Kernel.memsetDpgs { st.kernel with
      machine := (st.kernel.machine.allocate area.vastart (sub64 area.vaend area.vastart) false false pml4).2 } pml4
        area.vastart 0 (sub64 area.vaend area.vastart) with
    | none =>
      rw [hset] at hok
      exact absurd hok (by simp [bind, Except.bind])
    | some s =>
      rw [hset] at hok
      have hbytes := Kernel.memsetDpgs_below hbelow hset
      refine Or.inl ⟨htype, ?_⟩
      rw [← Except.ok.inj hok]
      unfold Kernel.setField
      dsimp only
      rw [hbytes]
  · split at hok
    · rename_i htype
      unfold LoadState.resume at hok
      cases hcopy : Kernel.memcpyDpgs { st.kernel with
        machine := (st.kernel.machine.allocate area.vastart (sub64 area.vaend area.vastart) false false pml4).2 } pml4
          (st.kernel.machine.allocate area.vastart (sub64 area.vaend area.vastart) false false pml4).2.activePage
          area.vastart (add64 base (st.kernel.elfSection address).shOffset) (sub64 area.vaend area.vastart) with
      | none =>
        rw [hcopy] at hok
        exact absurd hok (by simp [bind, Except.bind])
      | some s =>
        rw [hcopy] at hok
        have hbytes := Kernel.memcpyDpgs_below hbelow hcopy
        refine Or.inr ⟨htype, ?_⟩
        rw [← Except.ok.inj hok]
        cases fixed with
        | true => exact hbytes
        | false =>
          unfold Kernel.setField
          dsimp only
          rw [if_neg (by decide), if_neg (by decide), hbytes]
    · exact absurd hok (by simp)

/-- Filling that stops leaves the kernel's bytes. -/
theorem LoadState.fillSection_stopped {e : Option ElfError}
    (hstop : st.fillSection base pml4 address area fixed = .error (e, st')) : st'.kernel.bytes = st.kernel.bytes := by
  unfold LoadState.fillSection at hstop
  dsimp only at hstop
  split at hstop
  · rw [← (Prod.mk.inj (Except.error.inj hstop)).2]
  split at hstop
  · unfold LoadState.resume at hstop
    cases hset : Kernel.memsetDpgs { st.kernel with
      machine := (st.kernel.machine.allocate area.vastart (sub64 area.vaend area.vastart) false false pml4).2 } pml4
        area.vastart 0 (sub64 area.vaend area.vastart) with
    | none =>
      rw [hset] at hstop
      rw [← (Prod.mk.inj (Except.error.inj hstop)).2]
    | some s =>
      rw [hset] at hstop
      exact absurd hstop (by simp [bind, Except.bind])
  · split at hstop
    · unfold LoadState.resume at hstop
      cases hcopy : Kernel.memcpyDpgs { st.kernel with
        machine := (st.kernel.machine.allocate area.vastart (sub64 area.vaend area.vastart) false false pml4).2 } pml4
          (st.kernel.machine.allocate area.vastart (sub64 area.vaend area.vastart) false false pml4).2.activePage
          area.vastart (add64 base (st.kernel.elfSection address).shOffset) (sub64 area.vaend area.vastart) with
      | none =>
        rw [hcopy] at hstop
        rw [← (Prod.mk.inj (Except.error.inj hstop)).2]
      | some s =>
        rw [hcopy] at hstop
        exact absurd hstop (by simp [bind, Except.bind])
    · rw [← (Prod.mk.inj (Except.error.inj hstop)).2]

end Fill

section Rounds

variable {base pml4 : ℕ} {header : Elf64Ehdr} {random : ℕ → ℕ} {st b c : LoadState} {r : Bool × ℕ}

/-- What a round below the mirror does to the kernel's bytes. -/
theorem LoadState.loadRound_bytes
    (hbelow : ∀ area areas, b.roundPlacement base header random r = .place area areas → area.BelowKernel)
    (hok : b.loadRound base pml4 header random r = .ok c) :
    b.roundPlacement base header random r = .skip ∧ c.kernel.bytes = b.kernel.bytes ∨
      ∃ area areas, b.roundPlacement base header random r = .place area areas ∧
        ((b.kernel.sectionAt base header r.2).shType = shtNobits ∧ c.kernel.bytes =
            (b.kernel.setField (add64 (sectionAddress base header r.2) 24) (sub64 base area.vastart)).bytes ∨
          (b.kernel.sectionAt base header r.2).shType = shtProgbits ∧ c.kernel.bytes = if r.1 then b.kernel.bytes
            else (b.kernel.setField (add64 (sectionAddress base header r.2) 16) area.vastart).bytes) := by
  rw [LoadState.loadRound_eq] at hok
  cases hplace : b.roundPlacement base header random r with
  | skip =>
    rw [hplace] at hok
    rw [Except.ok.inj hok]
    exact Or.inl ⟨rfl, rfl⟩
  | fault =>
    rw [hplace] at hok
    exact absurd hok (by simp)
  | place area areas =>
    rw [hplace] at hok
    exact Or.inr ⟨area, areas, rfl, @LoadState.fillSection_bytes _ _ { b with areas } _ _ _ _ (hbelow area areas hplace) hok⟩

/-- A round that stops leaves the kernel's bytes. -/
theorem LoadState.loadRound_stopped {e : Option ElfError × LoadState}
    (hstop : b.loadRound base pml4 header random r = .error e) : e.2.kernel.bytes = b.kernel.bytes := by
  rw [LoadState.loadRound_eq] at hstop
  cases hplace : b.roundPlacement base header random r with
  | skip =>
    rw [hplace] at hstop
    exact absurd hstop (by simp)
  | fault =>
    rw [hplace] at hstop
    rw [← Except.error.inj hstop]
  | place area areas =>
    rw [hplace] at hstop
    exact @LoadState.fillSection_stopped _ _ { b with areas } _ _ _ _ _ hstop

/-- The bytes that the first stage leaves. -/
theorem LoadState.loadElfStageOne_bytes (inv : (ℕ → ℕ) → Prop)
    (hstep : ∀ r b c, st.Reaches base pml4 random r b →
      b.loadRound base pml4 (st.kernel.elfHeader base) random r = .ok c → inv b.kernel.bytes → inv c.kernel.bytes)
    (hst : inv st.kernel.bytes) : inv (st.loadElfStageOne base pml4 random).2.kernel.bytes := by
  have hends := foldlM_ends (fun b : LoadState => inv b.kernel.bytes)
    (fun e : Option ElfError × LoadState => inv e.2.kernel.bytes) hstep
    (fun r b e _ hstop hb => by rw [LoadState.loadRound_stopped hstop]; exact hb) hst
  rw [LoadState.loadElfStageOne_eq]
  split
  · rename_i b hloop
    exact hends.1 b hloop
  · rename_i e b hloop
    exact hends.2 (e, b) hloop

/-- The second stage and a stack below the mirror leave the kernel's bytes. -/
theorem LoadState.loadElfExec_bytes {stackRandom : ℕ} (thread : MainThread) (haccepts : st.Accepts base)
    (hstack : ∀ b, st.loadElfGeneral base pml4 random = (some .loadSuccess, b) →
      (stackArea b.areas stackRandom).vastart + baseStackSize ≤ kernelStart) :
    (st.loadElfExec base pml4 random stackRandom thread).state.kernel.bytes =
      (st.loadElfStageOne base pml4 random).2.kernel.bytes := by
  have hgeneral : (st.loadElfGeneral base pml4 random).2.kernel.bytes =
      (st.loadElfStageOne base pml4 random).2.kernel.bytes := by
    unfold LoadState.loadElfGeneral
    split
    · rename_i heq
      rw [heq]
    · rfl
  unfold LoadState.loadElfExec
  dsimp only
  rw [if_neg (not_not.mpr haccepts.1), if_neg (not_not.mpr haccepts.2), ← hgeneral]
  split
  · rename_i b heq
    rw [heq]
    unfold LoadState.mapStack
    dsimp only
    split
    · rfl
    split
    · rfl
    · rename_i s hset
      have hend := hstack b heq
      generalize baseStackSize = size at hend hset
      have hbytes := Kernel.memsetDpgs_below hend hset
      exact hbytes
  · rename_i status b _ heq
    rw [heq]

/-- A header that is refused changes nothing. -/
theorem LoadState.loadElfExec_refused {stackRandom : ℕ} (thread : MainThread) (hrefused : ¬ st.Accepts base) :
    (st.loadElfExec base pml4 random stackRandom thread).state = st := by
  unfold LoadState.loadElfExec
  dsimp only
  split
  · rfl
  split
  · rfl
  · rename_i haccepted htype
    exact absurd ⟨not_not.mp haccepted, not_not.mp htype⟩ hrefused

/-- A load that rewrites no header leaves all bytes of the kernel. -/
theorem LoadState.KeepsHeaders.bytes {stackRandom : ℕ} (h : st.KeepsHeaders base pml4 random)
    (hbelow : st.PlacedBelow base pml4 random stackRandom) (hbytes : ∀ x, st.kernel.bytes x < 256) (thread : MainThread) :
    (st.loadElfExec base pml4 random stackRandom thread).state.kernel.bytes = st.kernel.bytes := by
  by_cases haccepts : st.Accepts base
  · rw [LoadState.loadElfExec_bytes thread haccepts hbelow.2]
    refine LoadState.loadElfStageOne_bytes (· = st.kernel.bytes) (fun r b c hreached hok hb => ?_) rfl
    have hkept := h haccepts r b c hreached hok
    have hsection : st.kernel.sectionAt base (st.kernel.elfHeader base) r.2 =
        b.kernel.sectionAt base (st.kernel.elfHeader base) r.2 := by
      unfold Kernel.sectionAt Kernel.elfSection Kernel.field
      rw [hb]
    rw [hsection] at hkept
    rcases LoadState.loadRound_bytes (hbelow.1 r b hreached) hok with ⟨-, hsame⟩ | ⟨area, areas, hplace, hstore⟩
    · exact hsame.trans hb
    unfold LoadState.roundPlacement at hplace
    unfold Elf64Shdr.Rewritten at hkept
    rw [hplace] at hkept
    have hbytes : ∀ x, b.kernel.bytes x < 256 := by
      rw [hb]
      exact hbytes
    rcases hstore with ⟨htype, hstore⟩ | ⟨htype, hstore⟩
    · refine hstore.trans ((Kernel.setField_field hbytes ?_).trans hb)
      exact not_not.mp fun hne => hkept (Or.inl ⟨htype, hne⟩)
    · cases hpass : r.1 with
      | true =>
        rw [hpass, if_pos rfl] at hstore
        exact hstore.trans hb
      | false =>
        rw [hpass, if_neg (by decide)] at hstore
        refine hstore.trans ((Kernel.setField_field hbytes ?_).trans hb)
        exact not_not.mp fun hne => hkept (Or.inr ⟨htype, hpass, hne⟩)
  · rw [LoadState.loadElfExec_refused thread haccepts]

end Rounds

end Cthulhu
