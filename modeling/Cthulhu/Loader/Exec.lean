import Cthulhu.Lib.Stopping
import Cthulhu.Loader.Protect

/-!
# The whole load

`load_elf_exec`, with the two stages of `load_elf_general` and the stack of the main thread. The two loops of the
first stage are one loop over rounds, a pass and a section index each: a round skips its section, faults while it
looks for a place, or maps and fills the area it was given.
-/

namespace Cthulhu

open Lib

/-- `ET_EXEC`. -/
def etExec : ℕ := 2

/-- `BASE_STACK_SIZE`. -/
def baseStackSize : ℕ := 0x1000000

/-- What the loader sets of the main thread. -/
structure MainThread where
  lastRip : ℕ
  lastRsp : ℕ
  stackTopAddress : ℕ
  stackBottomAddress : ℕ
  deriving DecidableEq, Repr

/-- The area of the stack. -/
def stackArea (areas : List MmapArea) (random : ℕ) : MmapArea :=
  { (findVaHole areas baseStackSize 0x1000 random).1 with mtype := .stackData }

/-- The areas with that of the stack. -/
def stackAreas (areas : List MmapArea) (random : ℕ) : List MmapArea :=
  (selectHole areas baseStackSize 0x1000).before ++
    stackArea areas random :: (selectHole areas baseStackSize 0x1000).after

/-- What the loader returns, `none` for a fault, with the state and the thread it leaves. -/
structure LoadResult where
  status : Option ElfStatus
  state : LoadState
  thread : MainThread

namespace LoadState

/-- `load_elf_general`. -/
def loadElfGeneral (st : LoadState) (base pml4 : ℕ) (random : ℕ → ℕ) : Option ElfStatus × LoadState :=
  match st.loadElfStageOne base pml4 random with
  | (some .loadSuccess, st) =>
    let r := st.kernel.loadElfStageTwo base pml4
    (if r.2 then none else some .loadSuccess, { st with kernel := { st.kernel with machine := r.1 } })
  | r => r

/-- The end of `load_elf_exec`, which maps the stack. -/
def mapStack (st : LoadState) (pml4 random : ℕ) (thread : MainThread) : LoadResult :=
  let area := stackArea st.areas random
  let r := st.kernel.machine.allocate area.vastart baseStackSize false false pml4
  let st := { st with areas := stackAreas st.areas random, kernel := { st.kernel with machine := r.2 } }
  if r.1 = false then ⟨some (.error .enomem), st, thread⟩
  else
    match st.kernel.memsetDpgs pml4 area.vastart 0 baseStackSize with
    | none => ⟨none, st, thread⟩
    | some s =>
      ⟨some .loadSuccess, { st with kernel := s },
        { thread with stackBottomAddress := area.vastart, stackTopAddress := area.vaend, lastRsp := area.vaend }⟩

/-- `load_elf_exec`, with the values that the random generator of the process gives. -/
def loadElfExec (st : LoadState) (base pml4 : ℕ) (random : ℕ → ℕ) (stackRandom : ℕ) (thread : MainThread) : LoadResult :=
  let header := st.kernel.elfHeader base
  let accepted := checkElfHeader header
  if accepted ≠ .loadSuccess then ⟨some accepted, st, thread⟩
  else if header.type ≠ etExec then ⟨some (.error .notExecExecRequired), st, thread⟩
  else
    let thread := { thread with lastRip := header.entry }
    match st.loadElfGeneral base pml4 random with
    | (some .loadSuccess, st) => st.mapStack pml4 stackRandom thread
    | (status, st) => ⟨status, st, thread⟩

end LoadState

/-- What a round does with its section before it maps anything. -/
inductive Placement
  | skip
  | fault
  | place (area : MmapArea) (areas : List MmapArea)
  deriving DecidableEq

/-- What a round of the first loop, if `fixed`, or of the second one does with a section. -/
def Elf64Shdr.placement (sh : Elf64Shdr) (areas : List MmapArea) (fixed : Bool) (random : ℕ) : Placement :=
  if ¬ sh.Loaded ∨ fixed = decide (sh.shAddr = 0) then .skip
  else if fixed then
    match requestVaHole areas sh.shAddr sh.shSize with
    | none => .fault
    | some areas => .place (newArea sh.shAddr (add64 sh.shAddr sh.shSize)) areas
  else if sh.shAddralign = 0 then .fault
  else .place (findVaHole areas sh.shSize sh.shAddralign random).1 (findVaHole areas sh.shSize sh.shAddralign random).2

/-- The rounds of the two loops. -/
def loadRounds (header : Elf64Ehdr) : List (Bool × ℕ) :=
  (List.range header.shnum).map (Prod.mk true) ++ (List.range header.shnum).map (Prod.mk false)

namespace LoadState

variable (base pml4 : ℕ) (header : Elf64Ehdr) (random : ℕ → ℕ) (st : LoadState)

/-- A round of one of the two loops. -/
def loadRound (r : Bool × ℕ) : Loading :=
  if r.1 then st.fixedSection base pml4 header r.2 else st.floatingSection base pml4 header random r.2

/-- What a round does with its section. -/
def roundPlacement (r : Bool × ℕ) : Placement :=
  (st.kernel.sectionAt base header r.2).placement st.areas r.1 (random r.2)

end LoadState

section Rounds

variable {base pml4 : ℕ} {header : Elf64Ehdr} {random : ℕ → ℕ} {st : LoadState}

/-- The rounds are different. -/
theorem loadRounds_nodup (header : Elf64Ehdr) : (loadRounds header).Nodup := by
  refine List.Nodup.append (List.nodup_range.map fun _ _ h => (Prod.mk.inj h).2)
    (List.nodup_range.map fun _ _ h => (Prod.mk.inj h).2) fun r hfixed hfloating => ?_
  obtain ⟨i, -, rfl⟩ := List.mem_map.mp hfixed
  obtain ⟨j, -, heq⟩ := List.mem_map.mp hfloating
  exact absurd (Prod.mk.inj heq).1 (by decide)

/-- A round is about a section of the image. -/
theorem lt_of_mem_loadRounds {r : Bool × ℕ} (h : r ∈ loadRounds header) : r.2 < header.shnum := by
  rcases List.mem_append.mp h with h | h
  · obtain ⟨i, hi, rfl⟩ := List.mem_map.mp h
    exact List.mem_range.mp hi
  · obtain ⟨i, hi, rfl⟩ := List.mem_map.mp h
    exact List.mem_range.mp hi

/-- A round skips its section, faults, or maps and fills the area it was given. -/
theorem LoadState.loadRound_eq (st : LoadState) (r : Bool × ℕ) :
    st.loadRound base pml4 header random r = match st.roundPlacement base header random r with
      | .skip => .ok st
      | .fault => .error (none, st)
      | .place area areas => { st with areas }.fillSection base pml4 (sectionAddress base header r.2) area r.1 := by
  obtain ⟨fixed, i⟩ := r
  unfold loadRound roundPlacement Elf64Shdr.placement fixedSection floatingSection Kernel.sectionAt
  dsimp only
  generalize st.kernel.elfSection (sectionAddress base header i) = sh
  by_cases hnull : sh.shType = shtNull
  · cases fixed <;> simp [Elf64Shdr.Loaded, hnull]
  cases halloc : sh.isAlloc with
  | false => cases fixed <;> simp [Elf64Shdr.Loaded, hnull, halloc]
  | true =>
    by_cases hsize : sh.shSize = 0
    · cases fixed <;> simp [Elf64Shdr.Loaded, hnull, hsize]
    by_cases haddr : sh.shAddr = 0
    · cases fixed with
      | true => simp [hnull, haddr]
      | false =>
        by_cases halign : sh.shAddralign = 0
        · simp [Elf64Shdr.Loaded, hnull, halloc, haddr, hsize, halign]
        · simp [Elf64Shdr.Loaded, hnull, halloc, haddr, hsize, halign]
    · cases fixed with
      | false => simp [hnull, haddr]
      | true =>
        cases requestVaHole st.areas sh.shAddr sh.shSize with
        | none => simp [Elf64Shdr.Loaded, hnull, halloc, haddr, hsize]
        | some areas => simp [Elf64Shdr.Loaded, hnull, halloc, haddr, hsize]

/-- The rounds are the two loops, one after the other. -/
theorem LoadState.foldlM_loadRounds (st : LoadState) (base pml4 : ℕ) (header : Elf64Ehdr) (random : ℕ → ℕ) :
    (loadRounds header).foldlM (LoadState.loadRound base pml4 header random) st =
      (List.range header.shnum).foldlM (LoadState.fixedSection base pml4 header) st >>=
        (List.range header.shnum).foldlM (LoadState.floatingSection base pml4 header random) := by
  have hfixed (st : LoadState) (i : ℕ) : st.loadRound base pml4 header random (true, i) =
      st.fixedSection base pml4 header i := if_pos rfl
  have hfloating (st : LoadState) (i : ℕ) : st.loadRound base pml4 header random (false, i) =
      st.floatingSection base pml4 header random i := if_neg Bool.false_ne_true
  simp only [loadRounds, List.foldlM_append, List.foldlM_map, hfixed, hfloating]

/-- The first stage is one loop over the rounds. -/
theorem LoadState.loadElfStageOne_eq (st : LoadState) (base pml4 : ℕ) (random : ℕ → ℕ) :
    st.loadElfStageOne base pml4 random =
      match (loadRounds (st.kernel.elfHeader base)).foldlM
        (LoadState.loadRound base pml4 (st.kernel.elfHeader base) random) st with
      | .ok st => (some .loadSuccess, st)
      | .error (e, st) => (e.map .error, st) := by
  rw [LoadState.foldlM_loadRounds]
  rfl

end Rounds

end Cthulhu
