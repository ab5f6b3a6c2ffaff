import Mathlib.Logic.Function.Iterate
import Cthulhu.Boot.AcpiTables

/-!
# Walks over the parts of a table

The loops over the MADT and the MCFG count down the bytes that are left by the length of each part, and
stop at zero only. Such a walk ends inside its table exactly when the parts tile the table: no part
is empty, every byte that is read lies in the table, and the last part ends where the table does. The bytes of a
table are told by their distance from its start, modulo the size of the address space. Those of a table that was found
are mapped, since its checksum has been taken.
-/

namespace Cthulhu

/-- A part of a table: its length, the bytes of it that are read, and what is done with it. -/
structure TablePart (α : Type*) where
  length : ℕ
  fields : List ℕ
  apply : α → α

/-- A loop over the parts of a table, and the addresses of the bytes it has read. -/
structure TableWalk (α : Type*) where
  bytes : ℕ
  addr : ℕ
  reads : List ℕ
  out : α

namespace TableWalk

variable {α β : Type*}

/-- The test and, if it passes, one round. -/
def round (part : ℕ → TablePart α) (w : TableWalk α) : TableWalk α :=
  if w.bytes = 0 then w
  else
    let p := part w.addr
    { bytes := sub64 w.bytes p.length
      addr := add64 w.addr p.length
      reads := w.reads ++ p.fields.map (add64 w.addr)
      out := p.apply w.out }

/-- The loop behind a header of so many bytes. -/
def start (table length header : ℕ) (out : α) : TableWalk α := ⟨sub64 length header, add64 table header, [], out⟩

/-- The loop ends. -/
def Ends (part : ℕ → TablePart α) (w : TableWalk α) : Prop := ∃ n, ((round part)^[n] w).bytes = 0

/-- Every byte that is ever read lies in the table. -/
def ReadsInside (part : ℕ → TablePart α) (table length : ℕ) (w : TableWalk α) : Prop :=
  ∀ n, ∀ a ∈ ((round part)^[n] w).reads, sub64 a table < length

/-- What the loop leaves when it ends within so many rounds. -/
def result (part : ℕ → TablePart α) (w : TableWalk α) (rounds : ℕ) : Option α :=
  let w' := (round part)^[rounds] w
  if w'.bytes = 0 then some w'.out else none

/-- From an offset on the table is divided in parts that are not empty, each with its fields in the table. -/
inductive Tiled (part : ℕ → TablePart α) (table length : ℕ) : ℕ → Prop
  | stop : Tiled part table length length
  | part {o : ℕ} (hpos : 0 < (part (add64 table o)).length) (hend : o + (part (add64 table o)).length ≤ length)
      (hfields : ∀ k ∈ (part (add64 table o)).fields, o + k < length)
      (hrest : Tiled part table length (o + (part (add64 table o)).length)) : Tiled part table length o

variable {part : ℕ → TablePart α} {table length header o n : ℕ} {w : TableWalk α} {out : α}

/-- In front of the end of the table a part is not empty. -/
theorem Tiled.length_pos (h : Tiled part table length o) (ho : o ≠ length) : 0 < (part (add64 table o)).length := by
  cases h with
  | stop => exact absurd rfl ho
  | part hpos _ _ _ => exact hpos

/-- A walk that has ended stays as it is. -/
theorem round_of_ended (h : w.bytes = 0) : round part w = w := if_pos h

/-- So it does for ever. -/
theorem iterate_of_ended (h : w.bytes = 0) : (round part)^[n] w = w := Function.iterate_fixed (round_of_ended h) n

/-- The walk stands at an offset of the table. -/
structure At (table length o : ℕ) (w : TableWalk α) : Prop where
  small : length < 2 ^ 32
  inside : o ≤ length
  bytes : w.bytes = length - o
  addr : w.addr = add64 table o

/-- Offsets are added up. -/
theorem add64_add64 (a b c : ℕ) : add64 (add64 a b) c = add64 a (b + c) := by
  unfold add64
  omega

/-- The distance of a byte from the start of its table. -/
theorem sub64_add64 (htable : table < 2 ^ 64) (ho : o < 2 ^ 64) : sub64 (add64 table o) table = o := by
  unfold add64 sub64
  split <;> omega

/-- The walk starts behind the header, if the table has one. -/
theorem start_at (hsmall : length < 2 ^ 32) (hheader : header ≤ length) : At table length header (start table length header out) :=
  ⟨hsmall, hheader, sub64_of_le hheader, rfl⟩

/-- One round over a part that ends in the table. -/
theorem At.round (h : At table length o w) (hinside : o < length) (hend : o + (part (add64 table o)).length ≤ length) :
    At table length (o + (part (add64 table o)).length) (w.round part) := by
  have hleft := h.bytes
  have hnonzero : w.bytes ≠ 0 := by omega
  refine ⟨h.small, hend, ?_, ?_⟩
  · rw [TableWalk.round, if_neg hnonzero, h.addr]
    change sub64 w.bytes _ = _
    rw [sub64_of_le (by omega)]
    omega
  · rw [TableWalk.round, if_neg hnonzero, h.addr]
    exact add64_add64 _ _ _

/-- Over a table that is tiled the walk ends and reads inside. -/
theorem Tiled.walk (htable : table < 2 ^ 64) (htiled : Tiled part table length o) (h : At table length o w)
    (hreads : ∀ a ∈ w.reads, sub64 a table < length) : Ends part w ∧ ReadsInside part table length w := by
  induction htiled generalizing w with
  | stop =>
    have hzero : w.bytes = 0 := h.bytes.trans (Nat.sub_self _)
    constructor
    · exact ⟨0, hzero⟩
    · intro n a ha
      rw [iterate_of_ended hzero] at ha
      exact hreads a ha
  | @part o hpos hend hfields _ ih =>
    have hinside : o < length := by omega
    have hround : ∀ a ∈ (w.round part).reads, sub64 a table < length := by
      have hnonzero : w.bytes ≠ 0 := by
        rw [h.bytes]
        omega
      intro a ha
      rw [TableWalk.round, if_neg hnonzero] at ha
      rcases List.mem_append.mp ha with hold | hnew
      · exact hreads a hold
      · obtain ⟨k, hk, rfl⟩ := List.mem_map.mp hnew
        rw [h.addr] at hk ⊢
        have hfield := hfields k hk
        have hsmall := h.small
        rw [add64_add64, sub64_add64 htable (by omega)]
        exact hfield
    obtain ⟨⟨n, hn⟩, hall⟩ := ih (h.round hinside hend) hround
    constructor
    · exact ⟨n + 1, hn⟩
    · intro m a ha
      cases m with
      | zero => exact hreads a ha
      | succ m => exact hall m a ha

/-- What a walk reads from its second state on is part of what it reads. -/
theorem ReadsInside.round (h : ReadsInside part table length w) : ReadsInside part table length (w.round part) :=
  fun n => h (n + 1)

/-- A round reads inside. -/
theorem ReadsInside.field (h : ReadsInside part table length w) (hleft : w.bytes ≠ 0) {k : ℕ}
    (hk : k ∈ (part w.addr).fields) : sub64 (add64 w.addr k) table < length := by
  apply h 1
  rw [Function.iterate_one, TableWalk.round, if_neg hleft]
  exact List.mem_append_right _ (List.mem_map_of_mem hk)

section FirstByte

variable (htable : table < 2 ^ 64) (hfirst : ∀ a, 0 ∈ (part a).fields) (hshort : ∀ a, (part a).length < 2 ^ 32)
  (hfields : ∀ a, ∀ k ∈ (part a).fields, k < 2 ^ 32)
include htable hfirst hshort hfields

/-- A walk that ends and reads the first byte of every part, all of them inside, goes over a table that is tiled. -/
theorem tiled_of_walk (h : At table length o w) (hends : ((TableWalk.round part)^[n] w).bytes = 0)
    (hreads : ReadsInside part table length w) : Tiled part table length o := by
  have hsmall := h.small
  have hinside := h.inside
  have hleft := h.bytes
  induction n generalizing o w with
  | zero =>
    have hstop : o = length := by
      rw [Function.iterate_zero, id_eq] at hends
      omega
    rw [hstop]
    exact .stop
  | succ n ih =>
    by_cases hstop : o = length
    · rw [hstop]
      exact .stop
    · have hnonzero : w.bytes ≠ 0 := by omega
      have hshorter := hshort (add64 table o)
      rw [Function.iterate_succ_apply] at hends
      by_cases hend : o + (part (add64 table o)).length ≤ length
      · have hnext : At table length (o + (part (add64 table o)).length) (w.round part) := h.round (by omega) hend
        have hrest := ih hnext hends hreads.round hnext.inside hnext.bytes
        -- a part of length zero is walked over again
        by_cases hpos : (part (add64 table o)).length = 0
        · rw [hpos, Nat.add_zero] at hrest
          exact hrest
        · refine .part (by omega) hend (fun k hk => ?_) hrest
          have hfield := hfields _ k hk
          have hread := hreads.field hnonzero (h.addr ▸ hk)
          rw [h.addr, add64_add64, sub64_add64 htable (by omega)] at hread
          exact hread
      · exfalso
        have hover : (w.round part).bytes ≠ 0 := by
          rw [TableWalk.round, if_neg hnonzero, h.addr]
          change sub64 w.bytes _ ≠ 0
          unfold sub64
          split <;> omega
        have haddr : (w.round part).addr = add64 table (o + (part (add64 table o)).length) := by
          rw [TableWalk.round, if_neg hnonzero, h.addr]
          exact add64_add64 _ _ _
        have hread := hreads.round.field hover (hfirst _)
        rw [haddr, add64_add64, Nat.add_zero, sub64_add64 htable (by omega)] at hread
        exact hend hread.le

/-- A walk over a table ends and stays inside exactly when the table has its header and is tiled behind it. -/
theorem start_iff (hsmall : length < 2 ^ 32) (hheader : header < 2 ^ 32) :
    Ends part (start table length header out) ∧ ReadsInside part table length (start table length header out) ↔
      header ≤ length ∧ Tiled part table length header := by
  constructor
  · rintro ⟨⟨n, hn⟩, hreads⟩
    have hlong : header ≤ length := by
      by_contra hover
      have hleft : (start table length header out).bytes ≠ 0 := by
        change sub64 length header ≠ 0
        unfold sub64
        split <;> omega
      have hread := hreads.field hleft (hfirst _)
      change sub64 (add64 (add64 table header) 0) table < length at hread
      rw [add64_add64, Nat.add_zero, sub64_add64 htable (by omega)] at hread
      omega
    exact ⟨hlong, tiled_of_walk htable hfirst hshort hfields (start_at hsmall hlong) hn hreads⟩
  · rintro ⟨hlong, htiled⟩
    exact htiled.walk htable (start_at hsmall hlong) (by simp [start])

end FirstByte

/-- Walks over parts of the same lengths have the same bytes left at any time. -/
theorem bytes_eq_of_lengths {part' : ℕ → TablePart β} {w' : TableWalk β} (hparts : ∀ a, (part a).length = (part' a).length)
    (hbytes : w.bytes = w'.bytes) (haddr : w.addr = w'.addr) (n : ℕ) :
    ((TableWalk.round part)^[n] w).bytes = ((TableWalk.round part')^[n] w').bytes := by
  induction n generalizing w w' with
  | zero => exact hbytes
  | succ n ih =>
    apply ih
    · unfold TableWalk.round
      rw [hbytes]
      split
      · exact hbytes
      · dsimp only
        rw [haddr, hparts]
    · unfold TableWalk.round
      rw [hbytes]
      split
      · exact haddr
      · dsimp only
        rw [haddr, hparts]

/-- A walk leaves one result, whatever number of rounds it is given. -/
theorem result_unique {m : ℕ} {a b : α} (ha : result part w m = some a) (hb : result part w n = some b) : a = b := by
  have hstays (i j : ℕ) (hi : ((TableWalk.round part)^[i] w).bytes = 0) (hij : i ≤ j) :
      (TableWalk.round part)^[j] w = (TableWalk.round part)^[i] w := by
    obtain ⟨d, rfl⟩ := Nat.exists_eq_add_of_le' hij
    rw [Function.iterate_add_apply, iterate_of_ended hi]
  unfold result at ha hb
  dsimp only at ha hb
  split at ha <;> split at hb
  case isTrue.isTrue hm hn =>
    rcases Nat.le_total m n with hle | hle
    · rw [hstays m n hm hle] at hb
      exact Option.some.inj (ha.symm.trans hb)
    · rw [hstays n m hn hle] at ha
      exact Option.some.inj (ha.symm.trans hb)
  all_goals simp_all

/-- What every part keeps holds of the result. -/
theorem result_invariant (inv : α → Prop) (hpart : ∀ a x, inv x → inv ((part a).apply x)) (hw : inv w.out)
    (hout : result part w n = some out) : inv out := by
  have hall : inv ((TableWalk.round part)^[n] w).out := by
    clear hout
    induction n generalizing w with
    | zero => exact hw
    | succ n ih =>
      apply ih
      unfold TableWalk.round
      split
      · exact hw
      · exact hpart _ _ hw
  unfold result at hout
  dsimp only at hout
  split at hout
  · exact Option.some.inj hout ▸ hall
  · exact absurd hout (by simp)

end TableWalk

/-- `pci_bus_t`. -/
structure PciBus where
  baseAddress : ℕ
  segmentGroupNum : ℕ
  startPciBusnum : ℕ
  endPciBusnum : ℕ
  deriving DecidableEq, Repr

/-- `sizeof(ACPI_MCFG)`. -/
def mcfgSize : ℕ := 44

/-- `sizeof(MCFG_ALLOCATION)`. -/
def mcfgAllocationSize : ℕ := 16

namespace Acpi

open TableWalk

variable (acpi : Acpi)

/-- A round of `get_pcie_numcount`. -/
def numcountPart (_addr : ℕ) : TablePart ℤ := ⟨mcfgAllocationSize, [], fun num => num + 1⟩

/-- A round of `get_pcie_info`, which reads all of an `MCFG_ALLOCATION` but its reserved field. -/
def pcieInfoPart (addr : ℕ) : TablePart (List PciBus) where
  length := mcfgAllocationSize
  fields := List.range 12
  apply := fun entry => entry ++ [{
    baseAddress := acpi.number addr 8
    segmentGroupNum := acpi.number (addr + 8) 2
    startPciBusnum := acpi.byte (addr + 10)
    endPciBusnum := acpi.byte (addr + 11) }]

/-- The loop of `get_pcie_numcount`. -/
def numcountWalk (mcfg : ℕ) : TableWalk ℤ := start mcfg (acpi.length mcfg) mcfgSize 0

/-- The loop of `get_pcie_info`. -/
def pcieInfoWalk (mcfg : ℕ) : TableWalk (List PciBus) := start mcfg (acpi.length mcfg) mcfgSize []

/-- `"MCFG"`. -/
def mcfgName : List ℕ := [77, 67, 70, 71]

/-- `get_pcie_numcount`, given rounds enough. -/
def getPcieNumcount (rounds : ℕ) : Option ℤ :=
  (acpi.findTableGeneral mcfgName).bind fun mcfg =>
    if mcfg = 0 then some (-1) else result numcountPart (acpi.numcountWalk mcfg) rounds

/-- `get_pcie_info`, given rounds enough: the entries it writes. -/
def getPcieInfo (rounds : ℕ) : Option (List PciBus) :=
  (acpi.findTableGeneral mcfgName).bind fun mcfg =>
    if mcfg = 0 then some [] else result acpi.pcieInfoPart (acpi.pcieInfoWalk mcfg) rounds

variable {acpi} {mcfg : ℕ}

/-- The two loops over the MCFG go in step. -/
theorem numcountWalk_bytes (n : ℕ) : ((round numcountPart)^[n] (acpi.numcountWalk mcfg)).bytes =
    ((round acpi.pcieInfoPart)^[n] (acpi.pcieInfoWalk mcfg)).bytes := by
  apply bytes_eq_of_lengths
  · intro a
    rfl
  · rfl
  · rfl

/-- The count is the number of the entries written so far. -/
theorem numcountWalk_out (n : ℕ) : ((round numcountPart)^[n] (acpi.numcountWalk mcfg)).out =
    ((round acpi.pcieInfoPart)^[n] (acpi.pcieInfoWalk mcfg)).out.length := by
  induction n with
  | zero => rfl
  | succ n ih =>
    have hbytes : ((round numcountPart)^[n] (acpi.numcountWalk mcfg)).bytes =
        ((round acpi.pcieInfoPart)^[n] (acpi.pcieInfoWalk mcfg)).bytes := numcountWalk_bytes n
    rw [Function.iterate_succ_apply', Function.iterate_succ_apply', TableWalk.round, TableWalk.round, hbytes]
    split
    · exact ih
    · change _ + 1 = (((_ ++ [_] : List PciBus).length : ℕ) : ℤ)
      rw [ih, List.length_append, List.length_singleton]
      rfl

/-- `get_pcie_info` writes as many entries as `get_pcie_numcount` counts. -/
theorem pcieInfo_length {m n : ℕ} {num : ℤ} {entries : List PciBus}
    (hnum : result numcountPart (acpi.numcountWalk mcfg) m = some num)
    (hentries : result acpi.pcieInfoPart (acpi.pcieInfoWalk mcfg) n = some entries) : num = entries.length := by
  unfold result at hnum
  dsimp only at hnum
  split at hnum
  case isTrue hended =>
    have hinfo : result acpi.pcieInfoPart (acpi.pcieInfoWalk mcfg) m =
        some ((round acpi.pcieInfoPart)^[m] (acpi.pcieInfoWalk mcfg)).out :=
      if_pos ((numcountWalk_bytes m).symm.trans hended)
    rw [← Option.some.inj hnum, numcountWalk_out, result_unique hinfo hentries]
  case isFalse => exact absurd hnum (by simp)

/-- Parts of one length tile a table when they go into it. -/
theorem tiled_allocations {length o : ℕ} (ho : o ≤ length) (hmod : (length - o) % mcfgAllocationSize = 0) :
    Tiled acpi.pcieInfoPart mcfg length o := by
  obtain ⟨n, hn⟩ := Nat.dvd_of_mod_eq_zero hmod
  change length - o = 16 * n at hn
  induction n generalizing o with
  | zero =>
    obtain rfl : o = length := by omega
    exact .stop
  | succ n ih =>
    have hmod' : (length - (o + 16)) % 16 = 0 := by omega
    refine .part (Nat.succ_pos 15) ?_ (fun k hk => ?_) (ih (o := o + 16) (by omega) hmod' (by omega))
    · change o + 16 ≤ length
      omega
    · have hk' := List.mem_range.mp hk
      omega

/-- They do not where they do not go into it. -/
theorem Tiled.allocations {length o : ℕ} (h : Tiled acpi.pcieInfoPart mcfg length o) :
    (length - o) % mcfgAllocationSize = 0 := by
  induction h with
  | stop => rw [Nat.sub_self]; rfl
  | @part o hpos hend hfields _ ih =>
    change o + 16 ≤ length at hend
    change (length - (o + 16)) % 16 = 0 at ih
    change (length - o) % 16 = 0
    omega

/-- The loops over the MCFG end, and `get_pcie_info` reads inside the table, exactly when the table is a header and
whole allocations behind it. -/
theorem mcfgWalks_iff (hmcfg : mcfg < 2 ^ 64) :
    Ends numcountPart (acpi.numcountWalk mcfg) ∧ Ends acpi.pcieInfoPart (acpi.pcieInfoWalk mcfg) ∧
        ReadsInside acpi.pcieInfoPart mcfg (acpi.length mcfg) (acpi.pcieInfoWalk mcfg) ↔
      mcfgSize ≤ acpi.length mcfg ∧ (acpi.length mcfg - mcfgSize) % mcfgAllocationSize = 0 := by
  have hlength : acpi.length mcfg < 2 ^ 32 := number_lt _ _
  have hwalk : Ends acpi.pcieInfoPart (acpi.pcieInfoWalk mcfg) ∧
      ReadsInside acpi.pcieInfoPart mcfg (acpi.length mcfg) (acpi.pcieInfoWalk mcfg) ↔
        mcfgSize ≤ acpi.length mcfg ∧ Tiled acpi.pcieInfoPart mcfg (acpi.length mcfg) mcfgSize := start_iff hmcfg
    (fun _ => List.mem_range.mpr (by decide)) (fun _ => by change 16 < 2 ^ 32; decide)
    (fun _ k hk => Nat.lt_trans (List.mem_range.mp hk) (by decide)) hlength (by decide)
  constructor
  · rintro ⟨-, hinfo⟩
    obtain ⟨hlong, htiled⟩ := hwalk.mp hinfo
    exact ⟨hlong, Tiled.allocations htiled⟩
  · rintro ⟨hlong, hmod⟩
    obtain ⟨⟨n, hn⟩, hinside⟩ := hwalk.mpr ⟨hlong, tiled_allocations hlong hmod⟩
    exact ⟨⟨n, (numcountWalk_bytes n).trans hn⟩, ⟨n, hn⟩, hinside⟩

end Acpi

end Cthulhu
