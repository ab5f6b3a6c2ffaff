import Cthulhu.Loader.Reload
import Cthulhu.Memory.Mirror

/-!
# The loader on the processor

The copies and the loader so far take every kernel address for one that can be accessed. The offsets in an image are
untrusted, so that its section headers and the bytes of a section may be said to lie where nothing is mapped. Here each
access is tested against the page tables in force, and where it meets no mapping the kernel faults. A load that ends with
a code is the load without the tests.
-/

namespace Cthulhu

open Lib

namespace Kernel

variable (s : Kernel)

/-- The processor finds the address. -/
def mapped (a : ℕ) : Bool := (s.machine.hardwareTranslate a).isSome

/-- What is behind a pointer can be accessed, as far as it is at kernel addresses or in the mirror. The mirror takes up
one slot of the root. -/
def reachable (p : Pointer) (n : ℕ) : Bool :=
  match p with
  | .mirror frame _ => frame < 2 ^ 39
  | .address a => decide (∀ k < n, isPhysical (add64 a k) = true → s.mapped (add64 a k) = true)

/-- The fields of a header, by their offsets and sizes, are mapped. -/
def fieldsMapped (a : ℕ) (fields : List (ℕ × ℕ)) : Bool :=
  fields.all fun f => decide (∀ k < f.2, s.mapped (add64 (add64 a f.1) k) = true)

/-- `memcpy`. -/
def memcpyMapped (dest src : Pointer) (n : ℕ) : Option Kernel :=
  if s.reachable src n && s.reachable dest n then s.memcpy dest src n else none

/-- `memset`. -/
def memsetMapped (dest : Pointer) (v n : ℕ) : Option Kernel := if s.reachable dest n then s.memset dest v n else none

/-- The loop of `memcpy_dpgs`. -/
def memcpyDpgsMappedLoop (cr3a cr3b : ℕ) : ℕ → Kernel → ℕ → ℕ → ℕ → ℕ → ℕ → Option Kernel
  | 0, s, _, _, _, _, _ => some s
  | fuel + 1, s, dest, src, offs, offs2, n =>
    if n = 0 then some s
    else if isPhysical src && isPhysical dest then s.memcpyMapped (.address src) (.address dest) n
    else
      let phys := s.lookup src cr3b
      let phys2 := s.lookup dest cr3a
      if phys ≠ none ∨ phys2 ≠ none then
        let pos1 := match phys with
          | some entry => frameMemory (align entry) offs
          | none => .address src
        let pos2 := match phys2 with
          | some entry => frameMemory (align entry) offs2
          | none => .address dest
        let maxcpy := if offs < offs2 then 0x1000 - offs2 else 0x1000 - offs
        (s.memcpyMapped pos2 pos1 (if maxcpy < n then maxcpy else n)).bind fun s =>
          if n ≤ maxcpy then some s
          else
            let src := add64 src maxcpy
            let dest := add64 dest maxcpy
            memcpyDpgsMappedLoop cr3a cr3b fuel s dest src (src - align src) (dest - align dest) (n - maxcpy)
      else some s

/-- `memcpy_dpgs`. -/
def memcpyDpgsMapped (cr3a cr3b dest src n : ℕ) : Option Kernel :=
  memcpyDpgsMappedLoop cr3a cr3b n s dest src (src - align src) (dest - align dest) n

/-- The loop of `memset_dpgs`. -/
def memsetDpgsMappedLoop (cr3 v : ℕ) : ℕ → Kernel → ℕ → ℕ → ℕ → Option Kernel
  | 0, s, _, _, _ => some s
  | fuel + 1, s, src, offs, n =>
    if n = 0 then some s
    else if isPhysical src then s.memsetMapped (.address src) v n
    else
      match s.lookup src cr3 with
      | none => some s
      | some entry =>
        (s.memsetMapped (frameMemory (align entry) offs) v (if 0x1000 - offs < n then 0x1000 - offs else n)).bind fun s =>
          if n ≤ 0x1000 - offs then some s
          else memsetDpgsMappedLoop cr3 v fuel s (add64 src (0x1000 - offs)) 0 (n - (0x1000 - offs))

/-- `memset_dpgs`. -/
def memsetDpgsMapped (cr3 src v n : ℕ) : Option Kernel := memsetDpgsMappedLoop cr3 v n s src (src - align src) n

end Kernel

/-- The fields of the header that `load_elf_exec` reads, up to the one it refuses. -/
def Elf64Ehdr.fields (header : Elf64Ehdr) : List (ℕ × ℕ) :=
  (0, 1) :: if header.ident 0 ≠ 0x7F then [] else
  (1, 1) :: if header.ident 1 ≠ 0x45 then [] else
  (2, 1) :: if header.ident 2 ≠ 0x4C then [] else
  (3, 1) :: if header.ident 3 ≠ 0x46 then [] else
  (4, 1) :: if header.ident 4 ≠ 2 then [] else
  (5, 1) :: if header.ident 5 ≠ 1 then [] else
  (18, 2) :: if header.machine ≠ 62 then [] else
  (20, 4) :: if header.version ≠ 1 then [] else
  (16, 2) :: if header.type ≠ etExec then [] else
  [(24, 8), (40, 8), (60, 2)]

/-- The fields of a section header that a round reads before it maps anything. -/
def Elf64Shdr.fields (sh : Elf64Shdr) (fixed : Bool) : List (ℕ × ℕ) :=
  (4, 4) :: if sh.shType = shtNull then [] else
  (8, 8) :: if sh.isAlloc = false then [] else
  (16, 8) :: if fixed = decide (sh.shAddr = 0) then [] else
  (32, 8) :: if sh.shSize = 0 ∨ fixed = true then [] else
  [(48, 8)]

/-- The fields of a section header that a round of the second stage reads. -/
def Elf64Shdr.protectFields (sh : Elf64Shdr) : List (ℕ × ℕ) :=
  (4, 4) :: if sh.shType = shtNull then [] else
  (8, 8) :: if sh.isAlloc = false then [] else
  (16, 8) :: if sh.shAddr = 0 ∨ sh.isWrite = true then [] else
  [(32, 8)]

namespace LoadState

/-- A store of eight bytes to a section header. -/
def storeField (st : LoadState) (address offset w : ℕ) : Loading :=
  if st.kernel.fieldsMapped address [(offset, 8)] then
    .ok { st with kernel := st.kernel.setField (add64 address offset) w }
  else .error (none, st)

/-- Mapping and filling the area of a section. -/
def fillMapped (st : LoadState) (base pml4 address : ℕ) (area : MmapArea) (fixed : Bool) : Loading := do
  let sh := st.kernel.elfSection address
  let size := sub64 area.vaend area.vastart
  let r := st.kernel.machine.allocate area.vastart size false false pml4
  let st := { st with kernel := { st.kernel with machine := r.2 } }
  if r.1 = false then .error (some .enomem, st)
  else if sh.shType = shtNobits then
    let st ← st.resume (st.kernel.memsetDpgsMapped pml4 area.vastart 0 size)
    st.storeField address 24 (sub64 base area.vastart)
  else if sh.shType = shtProgbits then
    if st.kernel.fieldsMapped address [(24, 8)] then
      let st ← st.resume (st.kernel.memcpyDpgsMapped pml4 r.2.activePage area.vastart (add64 base sh.shOffset) size)
      if fixed then .ok st else st.storeField address 16 area.vastart
    else .error (none, st)
  else .error (some .unsupportedSectionTypeFixaddr, st)

variable (base pml4 : ℕ) (header : Elf64Ehdr) (random : ℕ → ℕ) (st : LoadState)

/-- A round of one of the two loops of `load_elf_stage_one`. -/
def roundMapped (r : Bool × ℕ) : Loading :=
  let address := sectionAddress base header r.2
  if st.kernel.fieldsMapped address ((st.kernel.elfSection address).fields r.1) then
    match st.roundPlacement base header random r with
    | .skip => .ok st
    | .fault => .error (none, st)
    | .place area areas => { st with areas }.fillMapped base pml4 address area r.1
  else .error (none, st)

/-- `load_elf_stage_one`. -/
def stageOneMapped : Option ElfStatus × LoadState :=
  match (loadRounds (st.kernel.elfHeader base)).foldlM (roundMapped base pml4 (st.kernel.elfHeader base) random) st with
  | .ok st => (some .loadSuccess, st)
  | .error (e, st) => (e.map .error, st)

end LoadState

namespace Kernel

variable (s : Kernel) (base pml4 : ℕ)

/-- One round of `load_elf_stage_two`; the flag says that the kernel faulted. -/
def protectMapped (st : Machine × Bool) (i : ℕ) : Machine × Bool :=
  if st.2 then st
  else if fieldsMapped { s with machine := st.1 } (sectionAddress base (s.elfHeader base) i) (s.sectionOf base i).protectFields
  then s.protectSection base pml4 st i
  else (st.1, true)

/-- `load_elf_stage_two`. -/
def stageTwoMapped : Machine × Bool :=
  run (s.protectMapped base pml4) (s.machine, false) (List.range (s.elfHeader base).shnum)

end Kernel

namespace LoadState

variable (base pml4 : ℕ) (random : ℕ → ℕ) (stackRandom : ℕ) (thread : MainThread) (st : LoadState)

/-- `load_elf_general`. -/
def generalMapped : Option ElfStatus × LoadState :=
  match st.stageOneMapped base pml4 random with
  | (some .loadSuccess, st) =>
    let r := st.kernel.stageTwoMapped base pml4
    (if r.2 then none else some .loadSuccess, { st with kernel := { st.kernel with machine := r.1 } })
  | r => r

/-- The end of `load_elf_exec`, which maps the stack. -/
def mapStackMapped : LoadResult :=
  let area := stackArea st.areas stackRandom
  let r := st.kernel.machine.allocate area.vastart baseStackSize false false pml4
  let st := { st with areas := stackAreas st.areas stackRandom, kernel := { st.kernel with machine := r.2 } }
  if r.1 = false then ⟨some (.error .enomem), st, thread⟩
  else
    match st.kernel.memsetDpgsMapped pml4 area.vastart 0 baseStackSize with
    | none => ⟨none, st, thread⟩
    | some s =>
      ⟨some .loadSuccess, { st with kernel := s },
        { thread with stackBottomAddress := area.vastart, stackTopAddress := area.vaend, lastRsp := area.vaend }⟩

/-- `load_elf_exec`. -/
def execMapped : LoadResult :=
  let header := st.kernel.elfHeader base
  if st.kernel.fieldsMapped base header.fields then
    let accepted := checkElfHeader header
    if accepted ≠ .loadSuccess then ⟨some accepted, st, thread⟩
    else if header.type ≠ etExec then ⟨some (.error .notExecExecRequired), st, thread⟩
    else
      let thread := { thread with lastRip := header.entry }
      match st.generalMapped base pml4 random with
      | (some .loadSuccess, st) => st.mapStackMapped pml4 stackRandom thread
      | (status, st) => ⟨status, st, thread⟩
  else ⟨none, st, thread⟩

end LoadState

section Copies

variable {s s' : Kernel} {dest src : Pointer} {cr3 cr3a cr3b v n : ℕ}

/-- A `memcpy` that is not stopped. -/
theorem Kernel.memcpyMapped_eq (h : s.memcpyMapped dest src n = some s') : s.memcpy dest src n = some s' := by
  unfold Kernel.memcpyMapped at h
  split at h
  · exact h
  · exact absurd h (by simp)

/-- A `memset` that is not stopped. -/
theorem Kernel.memsetMapped_eq (h : s.memsetMapped dest v n = some s') : s.memset dest v n = some s' := by
  unfold Kernel.memsetMapped at h
  split at h
  · exact h
  · exact absurd h (by simp)

/-- A copy that is not stopped is the copy. -/
theorem Kernel.memcpyDpgsMappedLoop_eq {fuel d p offs offs2 : ℕ}
    (h : Kernel.memcpyDpgsMappedLoop cr3a cr3b fuel s d p offs offs2 n = some s') :
    Kernel.memcpyDpgsLoop cr3a cr3b fuel s d p offs offs2 n = some s' := by
  induction fuel generalizing s d p offs offs2 n with
  | zero => exact h
  | succ fuel ih =>
    unfold Kernel.memcpyDpgsMappedLoop at h
    unfold Kernel.memcpyDpgsLoop
    by_cases hzero : n = 0
    · rw [if_pos hzero] at h ⊢
      exact h
    rw [if_neg hzero] at h ⊢
    by_cases hphys : (isPhysical p && isPhysical d) = true
    · rw [if_pos hphys] at h ⊢
      exact Kernel.memcpyMapped_eq h
    rw [if_neg hphys] at h ⊢
    dsimp only at h ⊢
    by_cases hfound : s.lookup p cr3b ≠ none ∨ s.lookup d cr3a ≠ none
    · rw [if_pos hfound] at h ⊢
      obtain ⟨s₁, hcopy, hrest⟩ := Option.bind_eq_some_iff.mp h
      refine Option.bind_eq_some_iff.mpr ⟨s₁, Kernel.memcpyMapped_eq hcopy, ?_⟩
      generalize (if offs < offs2 then 0x1000 - offs2 else 0x1000 - offs) = maxcpy at hrest ⊢
      by_cases hlast : n ≤ maxcpy
      · rw [if_pos hlast] at hrest ⊢
        exact hrest
      · rw [if_neg hlast] at hrest ⊢
        exact ih hrest
    · rw [if_neg hfound] at h ⊢
      exact h

/-- A fill that is not stopped is the fill. -/
theorem Kernel.memsetDpgsMappedLoop_eq {fuel p offs : ℕ}
    (h : Kernel.memsetDpgsMappedLoop cr3 v fuel s p offs n = some s') :
    Kernel.memsetDpgsLoop cr3 v fuel s p offs n = some s' := by
  induction fuel generalizing s p offs n with
  | zero => exact h
  | succ fuel ih =>
    unfold Kernel.memsetDpgsMappedLoop at h
    unfold Kernel.memsetDpgsLoop
    by_cases hzero : n = 0
    · rw [if_pos hzero] at h ⊢
      exact h
    rw [if_neg hzero] at h ⊢
    by_cases hphys : isPhysical p = true
    · rw [if_pos hphys] at h ⊢
      exact Kernel.memsetMapped_eq h
    rw [if_neg hphys] at h ⊢
    cases hfound : s.lookup p cr3 with
    | none =>
      rw [hfound] at h
      exact h
    | some entry =>
      rw [hfound] at h
      obtain ⟨s₁, hset, hrest⟩ := Option.bind_eq_some_iff.mp h
      refine Option.bind_eq_some_iff.mpr ⟨s₁, Kernel.memsetMapped_eq hset, ?_⟩
      split at hrest <;> rename_i hlast
      · rw [if_pos hlast]
        exact hrest
      · rw [if_neg hlast]
        exact ih hrest

end Copies

section Loads

variable {base pml4 stackRandom : ℕ} {header : Elf64Ehdr} {random : ℕ → ℕ} {thread : MainThread} {st : LoadState}

/-- Filling an area that is not stopped is filling it. -/
theorem LoadState.fillMapped_eq {address : ℕ} {area : MmapArea} {fixed : Bool}
    (h : ∀ c, st.fillMapped base pml4 address area fixed ≠ .error (none, c)) :
    st.fillSection base pml4 address area fixed = st.fillMapped base pml4 address area fixed := by
  unfold LoadState.fillMapped LoadState.storeField at h ⊢
  unfold LoadState.fillSection
  dsimp only at h ⊢
  generalize st.kernel.machine.allocate area.vastart (sub64 area.vaend area.vastart) false false pml4 = r at h ⊢
  by_cases hfailed : r.1 = false
  · rw [if_pos hfailed, if_pos hfailed]
  rw [if_neg hfailed] at h
  rw [if_neg hfailed, if_neg hfailed]
  by_cases hnobits : (st.kernel.elfSection address).shType = shtNobits
  · rw [if_pos hnobits] at h
    rw [if_pos hnobits, if_pos hnobits]
    cases hset : Kernel.memsetDpgsMapped { st.kernel with machine := r.2 } pml4 area.vastart 0
        (sub64 area.vaend area.vastart) with
    | none =>
      rw [hset] at h
      exact absurd rfl (h _)
    | some s =>
      rw [hset] at h
      have hplain : Kernel.memsetDpgs { st.kernel with machine := r.2 } pml4 area.vastart 0
          (sub64 area.vaend area.vastart) = some s := Kernel.memsetDpgsMappedLoop_eq hset
      rw [hplain]
      simp only [LoadState.resume, bind, Except.bind] at h ⊢
      split at h <;> rename_i hstored
      · rw [if_pos hstored]
      · exact absurd rfl (h _)
  rw [if_neg hnobits] at h
  rw [if_neg hnobits, if_neg hnobits]
  by_cases hprogbits : (st.kernel.elfSection address).shType = shtProgbits
  · rw [if_pos hprogbits] at h
    rw [if_pos hprogbits, if_pos hprogbits]
    split at h
    swap
    · exact absurd rfl (h _)
    rename_i hoffset
    rw [if_pos hoffset]
    cases hcopy : Kernel.memcpyDpgsMapped { st.kernel with machine := r.2 } pml4 r.2.activePage area.vastart
        (add64 base (st.kernel.elfSection address).shOffset) (sub64 area.vaend area.vastart) with
    | none =>
      rw [hcopy] at h
      exact absurd rfl (h _)
    | some s =>
      rw [hcopy] at h
      have hplain : Kernel.memcpyDpgs { st.kernel with machine := r.2 } pml4 r.2.activePage area.vastart
          (add64 base (st.kernel.elfSection address).shOffset) (sub64 area.vaend area.vastart) = some s :=
        Kernel.memcpyDpgsMappedLoop_eq hcopy
      rw [hplain]
      simp only [LoadState.resume, bind, Except.bind] at h ⊢
      cases fixed with
      | true => rfl
      | false =>
        rw [if_neg Bool.false_ne_true] at h
        rw [if_neg Bool.false_ne_true, if_neg Bool.false_ne_true]
        split at h <;> rename_i hstored
        · rw [if_pos hstored]
        · exact absurd rfl (h _)
  · rw [if_neg hprogbits, if_neg hprogbits]

/-- A round that does not fault is the round. -/
theorem LoadState.roundMapped_eq {r : Bool × ℕ} (h : ∀ c, st.roundMapped base pml4 header random r ≠ .error (none, c)) :
    st.loadRound base pml4 header random r = st.roundMapped base pml4 header random r := by
  rw [LoadState.loadRound_eq]
  unfold LoadState.roundMapped at h ⊢
  dsimp only at h ⊢
  split at h
  · rename_i hfields
    rw [if_pos hfields]
    cases hplace : st.roundPlacement base header random r with
    | skip => rfl
    | fault => rfl
    | place area areas =>
      rw [hplace] at h
      exact LoadState.fillMapped_eq h
  · exact absurd rfl (h _)

/-- A first stage that does not fault is the first stage. -/
theorem LoadState.stageOneMapped_eq (h : (st.stageOneMapped base pml4 random).1 ≠ none) :
    st.loadElfStageOne base pml4 random = st.stageOneMapped base pml4 random := by
  rw [LoadState.loadElfStageOne_eq]
  unfold LoadState.stageOneMapped at h ⊢
  have hrounds : (loadRounds (st.kernel.elfHeader base)).foldlM
      (LoadState.loadRound base pml4 (st.kernel.elfHeader base) random) st =
        (loadRounds (st.kernel.elfHeader base)).foldlM
          (LoadState.roundMapped base pml4 (st.kernel.elfHeader base) random) st := by
    refine foldlM_congr fun r b hreached => LoadState.roundMapped_eq fun c hstop => ?_
    rw [foldlM_error_iff.mpr ⟨r, b, hreached, hstop⟩] at h
    exact h rfl
  revert hrounds
  generalize (loadRounds (st.kernel.elfHeader base)).foldlM
    (LoadState.loadRound base pml4 (st.kernel.elfHeader base) random) st = plain
  rintro rfl
  cases (loadRounds (st.kernel.elfHeader base)).foldlM
      (LoadState.roundMapped base pml4 (st.kernel.elfHeader base) random) st with
  | ok b => rfl
  | error e => rfl

/-- A round that faults is not left any more. -/
theorem Kernel.protectMapped_stuck {s : Kernel} {m : Machine × Bool} (hm : m.2 = true) (l : List ℕ) :
    run (s.protectMapped base pml4) m l = m :=
  run_fixed fun _ _ => if_pos hm

/-- A second stage that does not fault is the second stage. -/
theorem Kernel.stageTwoMapped_eq {s : Kernel} (h : (s.stageTwoMapped base pml4).2 = false) :
    s.loadElfStageTwo base pml4 = s.stageTwoMapped base pml4 := by
  unfold Kernel.stageTwoMapped at h ⊢
  unfold Kernel.loadElfStageTwo
  generalize (s.machine, false) = m at h ⊢
  generalize List.range (s.elfHeader base).shnum = l at h ⊢
  induction l generalizing m with
  | nil => rfl
  | cons i l ih =>
    change (run (s.protectMapped base pml4) (s.protectMapped base pml4 m i) l).2 = false at h
    change run (s.protectSection base pml4) (s.protectSection base pml4 m i) l =
      run (s.protectMapped base pml4) (s.protectMapped base pml4 m i) l
    have hround : s.protectSection base pml4 m i = s.protectMapped base pml4 m i := by
      cases hflag : (s.protectMapped base pml4 m i).2 with
      | true =>
        rw [Kernel.protectMapped_stuck hflag, hflag] at h
        exact absurd h (by decide)
      | false =>
        unfold Kernel.protectMapped at hflag ⊢
        split at hflag
        · rename_i hstopped
          rw [if_pos hstopped, Kernel.protectSection, if_pos hstopped]
        · rename_i hgoes
          split at hflag
          · rename_i hfields
            rw [if_neg hgoes, if_pos hfields]
          · exact Bool.noConfusion hflag
    rw [hround]
    exact ih _ h

/-- A stack that is mapped without a fault. -/
theorem LoadState.mapStackMapped_eq (h : (st.mapStackMapped pml4 stackRandom thread).status ≠ none) :
    st.mapStack pml4 stackRandom thread = st.mapStackMapped pml4 stackRandom thread := by
  unfold LoadState.mapStackMapped at h ⊢
  unfold LoadState.mapStack
  dsimp only at h ⊢
  generalize st.kernel.machine.allocate (stackArea st.areas stackRandom).vastart baseStackSize false false pml4 = r at h ⊢
  by_cases hfailed : r.1 = false
  · rw [if_pos hfailed, if_pos hfailed]
  rw [if_neg hfailed] at h
  rw [if_neg hfailed, if_neg hfailed]
  cases hset : Kernel.memsetDpgsMapped { st.kernel with machine := r.2 } pml4 (stackArea st.areas stackRandom).vastart 0
      baseStackSize with
  | none =>
    rw [hset] at h
    exact absurd rfl h
  | some s =>
    have hplain : Kernel.memsetDpgs { st.kernel with machine := r.2 } pml4 (stackArea st.areas stackRandom).vastart 0
        baseStackSize = some s := Kernel.memsetDpgsMappedLoop_eq hset
    rw [hplain]

/-- A load that ends with a code is the load. -/
theorem LoadState.execMapped_eq (h : (st.execMapped base pml4 random stackRandom thread).status ≠ none) :
    st.loadElfExec base pml4 random stackRandom thread = st.execMapped base pml4 random stackRandom thread := by
  unfold LoadState.execMapped at h ⊢
  unfold LoadState.loadElfExec
  dsimp only at h ⊢
  split at h
  swap
  · exact absurd rfl h
  rename_i hfields
  rw [if_pos hfields]
  split_ifs at h ⊢ with hrefused htype
  · rfl
  · rfl
  have hgeneral : (st.generalMapped base pml4 random).1 ≠ none := by
    intro hnone
    generalize st.generalMapped base pml4 random = g at h hnone
    obtain ⟨status, b⟩ := g
    obtain rfl : status = none := hnone
    exact h rfl
  have hsame : st.loadElfGeneral base pml4 random = st.generalMapped base pml4 random := by
    unfold LoadState.generalMapped at hgeneral ⊢
    unfold LoadState.loadElfGeneral
    have hstage : (st.stageOneMapped base pml4 random).1 ≠ none := by
      intro hnone
      split at hgeneral
      · rename_i b hb
        rw [hb] at hnone
        exact absurd hnone (by simp)
      · exact hgeneral hnone
    rw [LoadState.stageOneMapped_eq hstage]
    generalize st.stageOneMapped base pml4 random = stage at hgeneral ⊢
    obtain ⟨status, b⟩ := stage
    cases status with
    | none => exact absurd rfl hgeneral
    | some status =>
      cases status with
      | error e => rfl
      | loadSuccess =>
        dsimp only at hgeneral ⊢
        cases hflag : (b.kernel.stageTwoMapped base pml4).2 with
        | true =>
          rw [hflag] at hgeneral
          exact absurd rfl hgeneral
        | false => rw [Kernel.stageTwoMapped_eq hflag, hflag]
  rw [hsame]
  generalize st.generalMapped base pml4 random = g at h ⊢
  obtain ⟨status, b⟩ := g
  cases status with
  | none => exact absurd rfl h
  | some status =>
    cases status with
    | error e => rfl
    | loadSuccess => exact LoadState.mapStackMapped_eq h

end Loads

end Cthulhu
