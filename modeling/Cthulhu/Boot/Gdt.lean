import Cthulhu.Boot.Processors

/-!
# The descriptor table

`reinitialize_gdt` builds the descriptor table with a running index that goes on by the two words of each TSS
descriptor and not by the data segment behind it, so that the next TSS descriptor replaces the
segment. The processors load their selectors with a stride of three words.
-/

namespace Cthulhu

open Lib

/-- The fields of `descriptor_t`. -/
inductive DescriptorField
  | limit0015
  | base0015
  | base2316
  | type
  | s
  | dpl
  | p
  | limit1916
  | avl
  | l
  | db
  | g
  | base3124
  deriving DecidableEq, Repr

namespace DescriptorField

/-- The first bit of a field. -/
def lo : DescriptorField → ℕ
  | limit0015 => 0
  | base0015 => 16
  | base2316 => 32
  | type => 40
  | s => 44
  | dpl => 45
  | p => 47
  | limit1916 => 48
  | avl => 52
  | l => 53
  | db => 54
  | g => 55
  | base3124 => 56

/-- The width of a field. -/
def width : DescriptorField → ℕ
  | limit0015 => 16
  | base0015 => 16
  | base2316 => 8
  | type => 4
  | s => 1
  | dpl => 2
  | p => 1
  | limit1916 => 4
  | avl => 1
  | l => 1
  | db => 1
  | g => 1
  | base3124 => 8

/-- A field of a descriptor. -/
def get (f : DescriptorField) (d : ℕ) : ℕ := field f.lo f.width d

/-- A descriptor with a field assigned. -/
def set (f : DescriptorField) (v d : ℕ) : ℕ := setField f.lo f.width v d

/-- Different fields share no bit. -/
theorem apart {f f' : DescriptorField} (h : f ≠ f') : f.lo + f.width ≤ f'.lo ∨ f'.lo + f'.width ≤ f.lo := by
  revert h
  cases f <;> cases f' <;> decide

/-- What a field holds after an assignment to one. -/
@[simp] theorem get_set (f f' : DescriptorField) (v d : ℕ) :
    f.get (f'.set v d) = if f = f' then v % 2 ^ f.width else f.get d := by
  by_cases h : f = f'
  · rw [if_pos h, h]
    exact field_setField
  · rw [if_neg h]
    exact field_setField_of_apart (apart h)

end DescriptorField

/-- Assignments to fields of a descriptor, one after the other. -/
def assign (fields : List (DescriptorField × ℕ)) (d : ℕ) : ℕ := fields.foldl (fun d f => f.1.set f.2 d) d

/-- The first assignment, and the others behind it. -/
theorem assign_cons (f : DescriptorField) (v : ℕ) (fields : List (DescriptorField × ℕ)) (d : ℕ) :
    assign ((f, v) :: fields) d = assign fields (f.set v d) := by
  rw [assign, assign, List.foldl_cons]

/-- No assignment. -/
theorem assign_nil (d : ℕ) : assign [] d = d := by
  rw [assign, List.foldl_nil]

/-- `cputss_t`, without its reserved words. -/
structure Cputss where
  rsp0 : ℕ
  rsp1 : ℕ
  rsp2 : ℕ
  ist1 : ℕ
  ist2 : ℕ
  ist3 : ℕ
  ist4 : ℕ
  ist5 : ℕ
  ist6 : ℕ
  ist7 : ℕ
  ioMapBaseAddress : ℕ
  deriving DecidableEq, Repr

/-- `sizeof(cputss_t)`. -/
def cputssSize : ℕ := 104

/-- The table of `gdt`, the task state segments in the order of the processors, and the `cpu_t` that `write_gs` gets. -/
structure Gdt where
  limit : ℕ
  descriptors : ℕ → ℕ
  tss : List Cputss
  gs : Option CpuT

/-- The task state segment of a processor. -/
def cputssOf (cpu : CpuT) : Cputss where
  rsp0 := cpu.stack
  rsp1 := 0
  rsp2 := 0
  ist1 := cpu.handlerStack
  ist2 := cpu.pfStack
  ist3 := cpu.dfStack
  ist4 := cpu.ipiStack
  ist5 := 0
  ist6 := 0
  ist7 := 0
  ioMapBaseAddress := 0

/-- The assignments to the first word of a TSS descriptor. -/
def tssFields (tssPoint : ℕ) : List (DescriptorField × ℕ) :=
  [(.base0015, tssPoint % 2 ^ 16), (.base2316, tssPoint / 2 ^ 16 % 2 ^ 8), (.base3124, tssPoint / 2 ^ 24 % 2 ^ 8),
    (.limit0015, cputssSize), (.s, 0), (.dpl, 0), (.g, 0), (.type, 9), (.p, 1)]

/-- The assignments to the segment for `gs`. -/
def gsFields : List (DescriptorField × ℕ) := [(.s, 1), (.type, 2), (.p, 1), (.dpl, 3)]

/-- The segments in front of those of the processors, by their places. -/
def fixedSegments : List (ℕ × List (DescriptorField × ℕ)) :=
  [(1, [(.s, 1), (.type, 10), (.p, 1), (.l, 1)]), (2, [(.s, 1), (.type, 2), (.p, 1), (.dpl, 0)]),
    (4, [(.s, 1), (.type, 2), (.p, 1), (.dpl, 3)]), (5, [(.s, 1), (.type, 10), (.dpl, 3), (.p, 1), (.l, 1)])]

/-- A round over the processors: the descriptors and `itc`. The task state segment was allocated at `tssPoint`. -/
def tssRound (st : (ℕ → ℕ) × ℕ) (tssPoint : ℕ) : (ℕ → ℕ) × ℕ :=
  let itc := st.2
  let d := Function.update st.1 itc (assign (tssFields tssPoint) (st.1 itc))
  let d := Function.update d (itc + 1) (setField 0 32 (tssPoint / 2 ^ 32) (d (itc + 1)))
  let itc := itc + 2
  (Function.update d itc (assign gsFields (d itc)), itc)

/-- The table with the fixed segments, cleared as far as it was allocated. -/
def fixedDescriptors (numdesc : ℕ) (stale : ℕ → ℕ) : ℕ → ℕ :=
  fixedSegments.foldl (fun d f => Function.update d f.1 (assign f.2 (d f.1))) fun i => if i < numdesc then 0 else stale i

/-- `reinitialize_gdt`. The task state segment of the processor at place `i` is allocated at `tss i`, the memory behind
the table holds `stale`, and the local APIC reads `localcpu`. -/
def reinitializeGdt (cpus : List CpuT) (tss stale : ℕ → ℕ) (localcpu : ℕ) : Gdt :=
  let numdesc := (6 + 3 * cpus.length) % 2 ^ 16
  { limit := sub64 (8 * numdesc) 1 % 2 ^ 16
    descriptors := (((List.range cpus.length).map tss).foldl tssRound (fixedDescriptors numdesc stale, 6)).1
    tss := cpus.map cputssOf
    gs := cpus.find? fun cpu => cpu.apicId = localcpu }

/-- The selector that `ap_main` passes to `load_gdt` for the processor at a place; the bootstrap processor passes the
one of place zero. -/
def tssSelector (ord : ℕ) : ℕ := (24 * ord % 2 ^ 16 + 48) % 2 ^ 16

/-- A selector names a present TSS descriptor with a base. -/
structure Gdt.NamesTss (gdt : Gdt) (selector base : ℕ) : Prop where
  present : DescriptorField.p.get (gdt.descriptors (selector / 8)) = 1
  system : DescriptorField.s.get (gdt.descriptors (selector / 8)) = 0
  available : DescriptorField.type.get (gdt.descriptors (selector / 8)) = 9
  base_eq : DescriptorField.base0015.get (gdt.descriptors (selector / 8)) +
    2 ^ 16 * DescriptorField.base2316.get (gdt.descriptors (selector / 8)) +
    2 ^ 24 * DescriptorField.base3124.get (gdt.descriptors (selector / 8)) +
    2 ^ 32 * field 0 32 (gdt.descriptors (selector / 8 + 1)) = base

/-- A selector names a present data segment. -/
structure Gdt.NamesData (gdt : Gdt) (selector : ℕ) : Prop where
  present : DescriptorField.p.get (gdt.descriptors (selector / 8)) = 1
  segment : DescriptorField.s.get (gdt.descriptors (selector / 8)) = 1
  data : DescriptorField.type.get (gdt.descriptors (selector / 8)) = 2

/-- The selectors of the processor at a place name its TSS descriptor and a data segment, both inside the table. -/
structure Gdt.Serves (gdt : Gdt) (tss : ℕ → ℕ) (i : ℕ) : Prop where
  selector : tssSelector i = 48 + 24 * i
  tss : gdt.NamesTss (tssSelector i) (tss i)
  segment : gdt.NamesData (tssSelector i + 16)
  inside : tssSelector i + 16 + 7 ≤ gdt.limit

section Rounds

variable {d : ℕ → ℕ} {itc k v : ℕ}

/-- The rounds behind the first start two words further. -/
theorem tssRounds_cons (point : ℕ) (rest : List ℕ) :
    (point :: rest).foldl tssRound (d, itc) = rest.foldl tssRound ((tssRound (d, itc) point).1, itc + 2) := by
  rw [List.foldl_cons]
  rfl

/-- A round writes from its index on. -/
theorem tssRound_below (hk : k < itc) (tssPoint : ℕ) : (tssRound (d, itc) tssPoint).1 k = d k := by
  unfold tssRound
  dsimp only
  rw [Function.update_of_ne (by omega), Function.update_of_ne (by omega), Function.update_of_ne (by omega)]

/-- So do all rounds. -/
theorem tssRounds_below (points : List ℕ) (hk : k < itc) : (points.foldl tssRound (d, itc)).1 k = d k := by
  induction points generalizing d itc with
  | nil => rfl
  | cons point rest ih =>
    rw [tssRounds_cons, ih (Nat.lt_add_right 2 hk), tssRound_below hk]

/-- The words of the TSS descriptor that a round writes. -/
theorem tssRound_words (d : ℕ → ℕ) (itc point : ℕ) :
    (tssRound (d, itc) point).1 itc = assign (tssFields point) (d itc) ∧
      (tssRound (d, itc) point).1 (itc + 1) = setField 0 32 (point / 2 ^ 32) (d (itc + 1)) ∧
      (tssRound (d, itc) point).1 (itc + 2) = assign gsFields (d (itc + 2)) := by
  unfold tssRound
  dsimp only
  refine ⟨?_, ?_, ?_⟩
  · rw [Function.update_of_ne (by omega), Function.update_of_ne (by omega), Function.update_self]
  · rw [Function.update_of_ne (by omega), Function.update_self, Function.update_of_ne (by omega)]
  · rw [Function.update_self, Function.update_of_ne (by omega), Function.update_of_ne (by omega)]

/-- What the first word of a TSS descriptor says. -/
theorem assign_tssFields (point : ℕ) :
    DescriptorField.p.get (assign (tssFields point) v) = 1 ∧ DescriptorField.s.get (assign (tssFields point) v) = 0 ∧
      DescriptorField.type.get (assign (tssFields point) v) = 9 ∧
      DescriptorField.base0015.get (assign (tssFields point) v) = point % 2 ^ 16 ∧
      DescriptorField.base2316.get (assign (tssFields point) v) = point / 2 ^ 16 % 2 ^ 8 ∧
      DescriptorField.base3124.get (assign (tssFields point) v) = point / 2 ^ 24 % 2 ^ 8 := by
  simp only [tssFields, assign_cons, assign_nil, DescriptorField.get_set, reduceCtorEq, if_true, if_false,
    DescriptorField.width, Nat.mod_mod, Nat.reducePow, Nat.reduceMod, and_self]

/-- What the segment for `gs` says. -/
theorem assign_gsFields : DescriptorField.p.get (assign gsFields v) = 1 ∧
    DescriptorField.s.get (assign gsFields v) = 1 ∧ DescriptorField.type.get (assign gsFields v) = 2 := by
  simp only [gsFields, assign_cons, assign_nil, DescriptorField.get_set, reduceCtorEq, if_true, if_false,
    DescriptorField.width, Nat.reducePow, Nat.reduceMod, and_self]

end Rounds

variable {cpus : List CpuT} {tss stale : ℕ → ℕ} {localcpu : ℕ}

/-- The table after the loop over the processors. -/
theorem reinitializeGdt_descriptors (cpus : List CpuT) (tss stale : ℕ → ℕ) (localcpu : ℕ) :
    (reinitializeGdt cpus tss stale localcpu).descriptors =
      (((List.range cpus.length).map tss).foldl tssRound
        (fixedDescriptors ((6 + 3 * cpus.length) % 2 ^ 16) stale, 6)).1 := rfl

/-- With a second processor, its TSS descriptor stands where the segment of the first is looked for. -/
theorem reinitializeGdt_second (cpus : List CpuT) (tss stale : ℕ → ℕ) (localcpu : ℕ) (hcpus : 2 ≤ cpus.length) :
    DescriptorField.s.get ((reinitializeGdt cpus tss stale localcpu).descriptors 8) = 0 := by
  obtain ⟨n, hn⟩ := Nat.exists_eq_add_of_le' hcpus
  have hpoints : (List.range (n + 2)).map tss = tss 0 :: tss 1 :: (List.range n).map fun i => tss (i + 2) := by
    rw [List.range_succ_eq_map, List.range_succ_eq_map]
    simp only [List.map_cons, List.map_map]
    rfl
  rw [reinitializeGdt_descriptors, hn, hpoints, tssRounds_cons, tssRounds_cons, tssRounds_below _ (by decide),
    (tssRound_words _ _ _).1]
  exact (assign_tssFields _).2.1

/-- The selector of the first processor names its TSS descriptor, however many there are. -/
theorem reinitializeGdt_first (hcpus : 1 ≤ cpus.length) (htss : tss 0 < 2 ^ 64) :
    (reinitializeGdt cpus tss stale localcpu).NamesTss (tssSelector 0) (tss 0) := by
  obtain ⟨n, hn⟩ := Nat.exists_eq_add_of_le' hcpus
  have hpoints : (List.range (n + 1)).map tss = tss 0 :: (List.range n).map fun i => tss (i + 1) := by
    rw [List.range_succ_eq_map]
    simp only [List.map_cons, List.map_map]
    rfl
  obtain ⟨hlow, hhigh, -⟩ := tssRound_words (fixedDescriptors ((6 + 3 * (n + 1)) % 2 ^ 16) stale) 6 (tss 0)
  have hword : (reinitializeGdt cpus tss stale localcpu).descriptors (tssSelector 0 / 8) =
      assign (tssFields (tss 0)) (fixedDescriptors ((6 + 3 * (n + 1)) % 2 ^ 16) stale 6) := by
    rw [reinitializeGdt_descriptors, hn, hpoints, tssRounds_cons, tssRounds_below _ (by decide)]
    exact hlow
  have hnext : (reinitializeGdt cpus tss stale localcpu).descriptors (tssSelector 0 / 8 + 1) =
      setField 0 32 (tss 0 / 2 ^ 32) (fixedDescriptors ((6 + 3 * (n + 1)) % 2 ^ 16) stale 7) := by
    rw [reinitializeGdt_descriptors, hn, hpoints, tssRounds_cons, tssRounds_below _ (by decide)]
    exact hhigh
  obtain ⟨hp, hs, htype, hbase, hmiddle, hupper⟩ :=
    assign_tssFields (v := fixedDescriptors ((6 + 3 * (n + 1)) % 2 ^ 16) stale 6) (tss 0)
  constructor
  · rw [hword, hp]
  · rw [hword, hs]
  · rw [hword, htype]
  · rw [hword, hnext, hbase, hmiddle, hupper, field_setField]
    omega

/-- With one processor the segment for `gs` stays. -/
theorem reinitializeGdt_single (hcpus : cpus.length = 1) :
    (reinitializeGdt cpus tss stale localcpu).NamesData (tssSelector 0 + 16) := by
  have hsegment : (reinitializeGdt cpus tss stale localcpu).descriptors ((tssSelector 0 + 16) / 8) =
      assign gsFields (fixedDescriptors 9 stale 8) := by
    rw [reinitializeGdt_descriptors, hcpus]
    exact (tssRound_words _ _ (tss 0)).2.2
  obtain ⟨hp, hs, htype⟩ := assign_gsFields (v := fixedDescriptors 9 stale 8)
  constructor
  · rw [hsegment, hp]
  · rw [hsegment, hs]
  · rw [hsegment, htype]

/-- The processors are served as they expect exactly when there is one. -/
theorem gdt_serves_iff (cpus : List CpuT) (tss stale : ℕ → ℕ) (localcpu : ℕ) (hcpus : 1 ≤ cpus.length)
    (htss : ∀ i, tss i < 2 ^ 64) :
    (∀ i < cpus.length, (reinitializeGdt cpus tss stale localcpu).Serves tss i) ↔ cpus.length = 1 := by
  constructor
  · intro hserves
    by_contra hmore
    have hsegment := (hserves 0 hcpus).segment.segment
    have hsecond := reinitializeGdt_second cpus tss stale localcpu (by omega)
    change DescriptorField.s.get ((reinitializeGdt cpus tss stale localcpu).descriptors 8) = 1 at hsegment
    omega
  · intro hsingle i hi
    obtain rfl : i = 0 := by omega
    refine ⟨by decide, reinitializeGdt_first hcpus (htss 0), reinitializeGdt_single hsingle, ?_⟩
    change 71 ≤ sub64 (8 * ((6 + 3 * cpus.length) % 2 ^ 16)) 1 % 2 ^ 16
    rw [hsingle]
    decide

/-- A `cpu_t` with this APIC id. -/
def idleCpu (apicId : ℕ) : CpuT := makeCpu (noBlocks 0) (some ⟨apicId, apicId, 1⟩) apicId

/-- Task state segments a page apart. -/
def tssBlocks (i : ℕ) : ℕ := 0x1000 * (i % 2 ^ 50 + 1)

/-- A single processor is served. -/
theorem gdt_serves_one : (reinitializeGdt [idleCpu 0] tssBlocks (fun _ => 0) 0).Serves tssBlocks 0 := by
  have hbelow (i : ℕ) : tssBlocks i < 2 ^ 64 := by
    unfold tssBlocks
    omega
  exact (gdt_serves_iff [idleCpu 0] tssBlocks (fun _ => 0) 0 (by decide) hbelow).mpr rfl 0 (by decide)

/-- With two processors the segment of the first is gone. -/
theorem gdt_serves_two : ¬ ∀ i < 2, (reinitializeGdt [idleCpu 0, idleCpu 1] tssBlocks (fun _ => 0) 0).Serves tssBlocks i := by
  intro hserves
  have hsegment := (hserves 0 (by decide)).segment.segment
  have hsecond := reinitializeGdt_second [idleCpu 0, idleCpu 1] tssBlocks (fun _ => 0) 0 (Nat.le_refl 2)
  exact absurd (hsegment.symm.trans hsecond) (by decide)

end Cthulhu
