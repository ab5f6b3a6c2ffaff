import Mathlib.Data.List.Nodup
import Mathlib.Data.List.Perm.Basic
import Cthulhu.Devices.Configuration

/-!
# What the PCIe enumeration finds

The functions that are to be recorded of a bus range against those that `load_pcie_entry_info` does record. It leaves
out the last bus and the last function of each device, counts the buses from the start of the range, and
takes the header of every function, not only of the first, for the sign that more follow.
-/

namespace Cthulhu

open Lib

/-- The numbers of a function. -/
structure FunctionAddress where
  bus : ℕ
  device : ℕ
  function : ℕ
  deriving DecidableEq, Repr

/-- The numbers in a record. -/
def PcieInfo.address (info : PcieInfo) : FunctionAddress := ⟨info.bus, info.device, info.function⟩

/-- Functions of all devices of so many buses from a first one on. -/
def addresses (first count : ℕ) (functions : ℕ → ℕ → List ℕ) : List FunctionAddress :=
  (List.range' first count).flatMap fun bus =>
    (List.range 32).flatMap fun device => (functions bus device).map fun function => ⟨bus, device, function⟩

/-- A function among them. -/
theorem mem_addresses {first count : ℕ} {functions : ℕ → ℕ → List ℕ} {p : FunctionAddress} :
    p ∈ addresses first count functions ↔
      first ≤ p.bus ∧ p.bus < first + count ∧ p.device < 32 ∧ p.function ∈ functions p.bus p.device := by
  unfold addresses
  rw [List.mem_flatMap]
  constructor
  · intro h
    obtain ⟨bus, hbus, h⟩ := h
    obtain ⟨device, hdevice, h⟩ := List.mem_flatMap.mp h
    obtain ⟨function, hfunction, rfl⟩ := List.mem_map.mp h
    have hrange := List.mem_range'_1.mp hbus
    exact ⟨hrange.1, hrange.2, List.mem_range.mp hdevice, hfunction⟩
  · intro h
    obtain ⟨hfirst, hcount, hdevice, hfunction⟩ := h
    refine ⟨p.bus, List.mem_range'_1.mpr ⟨hfirst, hcount⟩, List.mem_flatMap.mpr ⟨p.device, List.mem_range.mpr hdevice, ?_⟩⟩
    exact List.mem_map.mpr ⟨p.function, hfunction, rfl⟩

/-- They are different where those of each device are. -/
theorem nodup_addresses {functions : ℕ → ℕ → List ℕ} (h : ∀ bus device, (functions bus device).Nodup) (first count : ℕ) :
    (addresses first count functions).Nodup := by
  unfold addresses
  rw [List.nodup_flatMap]
  constructor
  · intro bus _
    rw [List.nodup_flatMap]
    constructor
    · intro device _
      apply (h bus device).map
      intro f f' hsame
      exact congrArg FunctionAddress.function hsame
    · apply List.nodup_range.imp
      intro d d' hne p hp hp'
      obtain ⟨f, -, rfl⟩ := List.mem_map.mp hp
      obtain ⟨f', -, hsame⟩ := List.mem_map.mp hp'
      exact hne (congrArg FunctionAddress.device hsame).symm
  · apply (List.nodup_range' 1).imp
    intro b b' hne p hp hp'
    obtain ⟨d, -, hp⟩ := List.mem_flatMap.mp hp
    obtain ⟨f, -, rfl⟩ := List.mem_map.mp hp
    obtain ⟨d', -, hp'⟩ := List.mem_flatMap.mp hp'
    obtain ⟨f', -, hsame⟩ := List.mem_map.mp hp'
    exact hne (congrArg FunctionAddress.bus hsame).symm

namespace PciBus

variable (bi : PciBus) (space : ℕ → ℕ)

/-- The header of a function of the range, whose first bus starts the configuration space. -/
def functionHeader (bus device function o : ℕ) : ℕ := space (busaddr (bus - bi.startPciBusnum) device function 0 0 + o)

/-- The vendor id is not `0xFFFF`. -/
def present (bus device function : ℕ) : Bool := headerBytes (functionHeader bi space bus device function) 0x00 2 ≠ 0xFFFF

/-- The header type has the bit of several functions. -/
def multiFunction (bus device function : ℕ) : Bool :=
  functionHeader bi space bus device function 0x0E % 256 &&& 0x80 ≠ 0

/-- The first function stands for the whole device. -/
def single (bus device : ℕ) : Bool := present bi space bus device 0 && !multiFunction bi space bus device 0

/-- A function that is to be recorded. -/
def wanted (bus device function : ℕ) : Bool :=
  present bi space bus device function && (function = 0 || !single bi space bus device)

/-- All functions that are to be recorded. -/
def wantedFunctions : List FunctionAddress :=
  addresses bi.startPciBusnum (bi.endPciBusnum + 1 - bi.startPciBusnum) fun bus device =>
    (List.range 8).filter (wanted bi space bus device)

/-- The records have the numbers of these functions, each of them once. -/
def Exact (records : List PcieInfo) : Prop := (records.map PcieInfo.address).Perm (wantedFunctions bi space)

/-- The functions that are recorded of a device on a bus that is counted from the start of the range. -/
def recorded (i device : ℕ) : List ℕ :=
  takeThrough (multiFunction bi space (bi.startPciBusnum + i) device)
    ((List.range 7).filter (present bi space (bi.startPciBusnum + i) device))

/-- A device whose functions the walk finds: it has one function, or it does not have the last one and all but the last of
those that it has say that there are several. -/
def Served (bus device : ℕ) : Prop :=
  single bi space bus device = true ∨
    present bi space bus device 7 = false ∧ ∀ f < 7, ∀ g < f, present bi space bus device g = true →
      present bi space bus device f = true → multiFunction bi space bus device g = true

/-- No function of a bus answers. -/
def Silent (bus : ℕ) : Prop := ∀ device < 32, ∀ function < 8, present bi space bus device function = false

/-- Where the walk finds what is to be recorded. -/
def Covered (mapped : Option ℕ) (room : ℕ) : Prop :=
  (∀ bus, bi.startPciBusnum ≤ bus → bus ≤ bi.endPciBusnum → Silent bi space bus) ∨
    mapped.isSome = true ∧ bi.startPciBusnum = 0 ∧ Silent bi space bi.endPciBusnum ∧
      (∀ bus < bi.endPciBusnum, ∀ device < 32, Served bi space bus device) ∧ (wantedFunctions bi space).length ≤ room

end PciBus

namespace PciBus

variable {bi : PciBus} {space : ℕ → ℕ} {base : ℕ} {descriptions : ℕ → Option String} {i j k : ℕ}

/-- The bytes of a function where the range is mapped. -/
theorem mapped_header (bi : PciBus) (hi : i < 256) (hj : j < 32) (hk : k < 8) (o : ℕ) :
    (fun a => space (a - base)) (configDword base i j k 0 0 + o) = functionHeader bi space (bi.startPciBusnum + i) j k o := by
  unfold functionHeader configDword
  dsimp only
  rw [Nat.mod_eq_of_lt hi, Nat.mod_eq_of_lt (Nat.lt_trans hj (by decide)), Nat.mod_eq_of_lt (Nat.lt_trans hk (by decide)),
    Nat.zero_mod, Nat.add_sub_cancel_left]
  congr 1
  omega

/-- The walk sees which functions are present. -/
theorem answers_eq (hi : i < 256) (hj : j < 32) (hk : k < 8) :
    answers (fun a => space (a - base)) base i j k = present bi space (bi.startPciBusnum + i) j k := by
  have hword := @configReadWord_header_two (fun a => space (a - base)) base i j k _ (bi.mapped_header hi hj hk) 0 2
    (by decide) (Or.inr rfl)
  unfold answers present
  rw [hword]

/-- The walk sees which functions say that there are several. -/
theorem goesOn_eq (hi : i < 256) (hj : j < 32) (hk : k < 8) : goesOn (fun a => space (a - base)) base descriptions i j k =
    bi.multiFunction space (bi.startPciBusnum + i) j k := by
  have hbyte := @configReadByte_header (fun a => space (a - base)) base i j k _ (bi.mapped_header hi hj hk) 3 1 (by decide)
    (by decide)
  have hhtype : (readInfo (fun a => space (a - base)) base descriptions i j k).htype =
      bi.functionHeader space (bi.startPciBusnum + i) j k 0x0E % 256 := by
    rw [readInfo]
    dsimp only
    rw [Nat.mod_eq_of_lt hi, Nat.mod_eq_of_lt (Nat.lt_trans hj (by decide)), Nat.mod_eq_of_lt (Nat.lt_trans hk (by decide)),
      hbyte]
  unfold goesOn multiFunction
  rw [hhtype]

/-- A record has the numbers that the walk counts. -/
theorem readInfo_address {mem : ℕ → ℕ} (hi : i < 256) (hj : j < 32) (hk : k < 8) :
    (readInfo mem base descriptions i j k).address = ⟨i, j, k⟩ := by
  unfold PcieInfo.address readInfo
  dsimp only
  rw [Nat.mod_eq_of_lt hi, Nat.mod_eq_of_lt (Nat.lt_trans hj (by decide)), Nat.mod_eq_of_lt (Nat.lt_trans hk (by decide))]

/-- The records of a device. -/
theorem deviceRecords_address (hi : i < 256) (hj : j < 32) :
    (deviceRecords (fun a => space (a - base)) base descriptions i j (List.range 7)).map PcieInfo.address =
      (bi.recorded space i j).map fun function => ⟨i, j, function⟩ := by
  have hanswers : (List.range 7).filter (answers (fun a => space (a - base)) base i j) =
      (List.range 7).filter (bi.present space (bi.startPciBusnum + i) j) :=
    List.filter_congr fun k hk => answers_eq hi hj (Nat.lt_succ_of_lt (List.mem_range.mp hk))
  have hgoes : ∀ k ∈ (List.range 7).filter (bi.present space (bi.startPciBusnum + i) j),
      goesOn (fun a => space (a - base)) base descriptions i j k = bi.multiFunction space (bi.startPciBusnum + i) j k :=
    fun k hk => goesOn_eq hi hj (Nat.lt_succ_of_lt (List.mem_range.mp (List.mem_filter.mp hk).1))
  rw [deviceRecords, hanswers, takeThrough_congr hgoes, List.map_map]
  apply List.map_congr_left
  intro k hk
  have hseven := List.mem_range.mp (List.mem_filter.mp ((takeThrough_sublist _ _).subset hk)).1
  exact readInfo_address hi hj (Nat.lt_succ_of_lt hseven)

/-- The records of a range. -/
theorem allRecords_address {n : ℕ} (hn : n ≤ 256) :
    (allRecords (fun a => space (a - base)) base descriptions n).map PcieInfo.address = addresses 0 n (bi.recorded space) := by
  unfold allRecords addresses
  rw [List.map_flatMap, ← List.range_eq_range']
  apply List.flatMap_congr
  intro i hi
  rw [List.map_flatMap]
  apply List.flatMap_congr
  intro j hj
  exact deviceRecords_address (Nat.lt_of_lt_of_le (List.mem_range.mp hi) hn) (List.mem_range.mp hj)

/-- A function that is recorded. -/
theorem mem_recorded : k ∈ bi.recorded space i j ↔ k < 7 ∧ bi.present space (bi.startPciBusnum + i) j k = true ∧
    ∀ g < k, bi.present space (bi.startPciBusnum + i) j g = true →
      bi.multiFunction space (bi.startPciBusnum + i) j g = true := by
  have hsorted : ((List.range 7).filter (bi.present space (bi.startPciBusnum + i) j)).Pairwise (· < ·) :=
    List.pairwise_lt_range.filter _
  unfold recorded
  rw [mem_takeThrough hsorted, List.mem_filter, List.mem_range, and_assoc, and_congr_right_iff, and_congr_right_iff]
  intro hk _
  constructor
  · intro h g hg hpresent
    exact h g (List.mem_filter.mpr ⟨List.mem_range.mpr (Nat.lt_trans hg hk), hpresent⟩) hg
  · intro h g hmem hg
    exact h g hg (List.mem_filter.mp hmem).2

/-- The functions of a device that are recorded are different. -/
theorem nodup_recorded : (bi.recorded space i j).Nodup :=
  (List.nodup_range.filter _).sublist (takeThrough_sublist _ _)

/-- A function that is to be recorded. -/
theorem wanted_iff {b d f : ℕ} : bi.wanted space b d f = true ↔
    bi.present space b d f = true ∧ (f = 0 ∨ bi.single space b d = false) := by
  unfold wanted
  simp

/-- A device has a function to be recorded where it has one at all. -/
theorem exists_wanted {b d f : ℕ} (h : bi.present space b d f = true) (hf : f < 8) : ∃ g < 8, bi.wanted space b d g = true := by
  cases hsingle : bi.single space b d with
  | true => exact ⟨0, by decide, wanted_iff.mpr ⟨(Bool.and_eq_true_iff.mp hsingle).1, Or.inl rfl⟩⟩
  | false => exact ⟨f, hf, wanted_iff.mpr ⟨h, Or.inr hsingle⟩⟩

/-- What is recorded of a device is to be recorded. -/
theorem wanted_of_recorded (hk : k ∈ bi.recorded space i j) : bi.wanted space (bi.startPciBusnum + i) j k = true := by
  obtain ⟨-, hpresent, hbelow⟩ := mem_recorded.mp hk
  apply wanted_iff.mpr ⟨hpresent, _⟩
  by_cases hzero : k = 0
  · exact Or.inl hzero
  · right
    have hfirst := hbelow 0 (Nat.pos_of_ne_zero hzero)
    unfold single
    cases hp : bi.present space (bi.startPciBusnum + i) j 0 with
    | true => simp [hfirst hp]
    | false => rfl

/-- Everything that is to be recorded of a device is recorded exactly when the device is served. -/
theorem recorded_iff : (∀ f < 8, bi.wanted space (bi.startPciBusnum + i) j f = true → f ∈ bi.recorded space i j) ↔
    bi.Served space (bi.startPciBusnum + i) j := by
  constructor
  · intro h
    unfold Served
    cases hsingle : bi.single space (bi.startPciBusnum + i) j with
    | true => exact Or.inl rfl
    | false =>
      right
      have hall (f : ℕ) (hf : f < 8) (hpresent : bi.present space (bi.startPciBusnum + i) j f = true) :=
        mem_recorded.mp (h f hf (wanted_iff.mpr ⟨hpresent, Or.inr hsingle⟩))
      constructor
      · apply Bool.eq_false_of_not_eq_true
        intro hseven
        exact absurd (hall 7 (by decide) hseven).1 (by decide)
      · intro f hf g hg hpresent hpresentf
        exact (hall f (Nat.lt_succ_of_lt hf) hpresentf).2.2 g hg hpresent
  · intro h f hf hwanted
    obtain ⟨hpresent, hfirst⟩ := wanted_iff.mp hwanted
    apply mem_recorded.mpr
    cases h with
    | inl hsingle =>
      have hzero : f = 0 := by
        cases hfirst with
        | inl hzero => exact hzero
        | inr hno => exact absurd (hsingle.symm.trans hno) (by decide)
      subst hzero
      exact ⟨by decide, hpresent, fun g hg => absurd hg (Nat.not_lt_zero g)⟩
    | inr hmany =>
      have hseven : f ≠ 7 := by
        rintro rfl
        exact absurd (hpresent.symm.trans hmany.1) (by decide)
      have hlast : f < 7 := by omega
      exact ⟨hlast, hpresent, fun g hg hg' => hmany.2 f hlast g hg hg' hpresent⟩

/-- A function that is to be recorded, among all of them. -/
theorem mem_wantedFunctions (hrange : bi.startPciBusnum ≤ bi.endPciBusnum) {p : FunctionAddress} :
    p ∈ bi.wantedFunctions space ↔ bi.startPciBusnum ≤ p.bus ∧ p.bus ≤ bi.endPciBusnum ∧ p.device < 32 ∧ p.function < 8 ∧
      bi.wanted space p.bus p.device p.function = true := by
  have hcount : bi.startPciBusnum + (bi.endPciBusnum + 1 - bi.startPciBusnum) = bi.endPciBusnum + 1 := by omega
  unfold wantedFunctions
  rw [mem_addresses, hcount, Nat.lt_succ_iff, List.mem_filter, List.mem_range]

/-- These are different. -/
theorem nodup_wantedFunctions : (bi.wantedFunctions space).Nodup :=
  nodup_addresses (fun _ _ => List.nodup_range.filter _) _ _

/-- There are none exactly when no function answers. -/
theorem wantedFunctions_eq_nil_iff (hrange : bi.startPciBusnum ≤ bi.endPciBusnum) : bi.wantedFunctions space = [] ↔
    ∀ bus, bi.startPciBusnum ≤ bus → bus ≤ bi.endPciBusnum → bi.Silent space bus := by
  rw [List.eq_nil_iff_forall_not_mem]
  constructor
  · intro h bus hstart hend device hdevice function hfunction
    apply Bool.eq_false_of_not_eq_true
    intro hpresent
    obtain ⟨g, hg, hwanted⟩ := exists_wanted hpresent hfunction
    exact h ⟨bus, device, g⟩ ((mem_wantedFunctions hrange).mpr ⟨hstart, hend, hdevice, hg, hwanted⟩)
  · intro h p hp
    obtain ⟨hstart, hend, hdevice, hfunction, hwanted⟩ := (mem_wantedFunctions hrange).mp hp
    have hsilent := h p.bus hstart hend p.device hdevice p.function hfunction
    exact absurd ((wanted_iff.mp hwanted).1.symm.trans hsilent) (by decide)

/-- A range that starts behind bus zero is recorded with other numbers: nothing of it is in place. -/
theorem perm_iff_of_start_pos (hpos : 0 < bi.startPciBusnum) (hrange : bi.startPciBusnum ≤ bi.endPciBusnum) (room : ℕ) :
    ((addresses 0 (bi.endPciBusnum - bi.startPciBusnum) (bi.recorded space)).take room).Perm (bi.wantedFunctions space) ↔
      bi.wantedFunctions space = [] := by
  have hnext {p : FunctionAddress} (hp : p ∈ addresses 0 (bi.endPciBusnum - bi.startPciBusnum) (bi.recorded space)) :
      (⟨bi.startPciBusnum + p.bus, p.device, p.function⟩ : FunctionAddress) ∈ bi.wantedFunctions space := by
    obtain ⟨-, hbus, hdevice, hrecorded⟩ := mem_addresses.mp hp
    refine (mem_wantedFunctions hrange).mpr ⟨Nat.le_add_right _ _, ?_, hdevice, ?_, wanted_of_recorded hrecorded⟩
    · change bi.startPciBusnum + p.bus ≤ bi.endPciBusnum
      omega
    · exact Nat.lt_succ_of_lt (mem_recorded.mp hrecorded).1
  constructor
  · intro hperm
    apply List.eq_nil_iff_forall_not_mem.mpr
    intro p hp
    -- each function leads to one on a later bus
    have hclimb : ∀ n, ∃ q ∈ bi.wantedFunctions space, n ≤ q.bus := by
      intro n
      induction n with
      | zero => exact ⟨p, hp, Nat.zero_le _⟩
      | succ n ih =>
        obtain ⟨q, hq, hn⟩ := ih
        refine ⟨_, hnext (List.mem_of_mem_take (hperm.mem_iff.mpr hq)), ?_⟩
        change n + 1 ≤ bi.startPciBusnum + q.bus
        omega
    obtain ⟨q, hq, hn⟩ := hclimb (bi.endPciBusnum + 1)
    have hend := ((mem_wantedFunctions hrange).mp hq).2.1
    omega
  · intro hnone
    have hempty : addresses 0 (bi.endPciBusnum - bi.startPciBusnum) (bi.recorded space) = [] := by
      apply List.eq_nil_iff_forall_not_mem.mpr
      intro p hp
      exact absurd (hnone ▸ hnext hp) List.not_mem_nil
    rw [hempty, hnone, List.take_nil]

/-- In a range from bus zero on, where something is to be recorded. -/
theorem perm_iff_of_start_zero (hzero : bi.startPciBusnum = 0) (room : ℕ) :
    ((addresses 0 bi.endPciBusnum (bi.recorded space)).take room).Perm (bi.wantedFunctions space) ↔
      bi.Silent space bi.endPciBusnum ∧ (∀ bus < bi.endPciBusnum, ∀ device < 32, bi.Served space bus device) ∧
        (bi.wantedFunctions space).length ≤ room := by
  have hrange : bi.startPciBusnum ≤ bi.endPciBusnum := hzero ▸ Nat.zero_le _
  have hplace (i : ℕ) : bi.startPciBusnum + i = i := by rw [hzero, Nat.zero_add]
  have hnodup : (addresses 0 bi.endPciBusnum (bi.recorded space)).Nodup := nodup_addresses (fun _ _ => nodup_recorded) _ _
  have hsubset : ∀ p ∈ addresses 0 bi.endPciBusnum (bi.recorded space), p ∈ bi.wantedFunctions space := by
    intro p hp
    obtain ⟨-, hbus, hdevice, hrecorded⟩ := mem_addresses.mp hp
    rw [Nat.zero_add] at hbus
    have hwanted := wanted_of_recorded hrecorded
    rw [hplace] at hwanted
    exact (mem_wantedFunctions hrange).mpr ⟨hzero ▸ Nat.zero_le _, Nat.le_of_lt hbus, hdevice,
      Nat.lt_succ_of_lt (mem_recorded.mp hrecorded).1, hwanted⟩
  constructor
  · intro hperm
    have hall {p : FunctionAddress} (hp : p ∈ bi.wantedFunctions space) : p.bus < bi.endPciBusnum ∧
        p.function ∈ bi.recorded space p.bus p.device := by
      obtain ⟨-, hbus, -, hrecorded⟩ := mem_addresses.mp (List.mem_of_mem_take (hperm.mem_iff.mpr hp))
      exact ⟨by omega, hrecorded⟩
    refine ⟨?_, ?_, ?_⟩
    · intro device hdevice function hfunction
      apply Bool.eq_false_of_not_eq_true
      intro hpresent
      obtain ⟨g, hg, hwanted⟩ := exists_wanted hpresent hfunction
      have hlast := hall ((mem_wantedFunctions (p := ⟨bi.endPciBusnum, device, g⟩) hrange).mpr
        ⟨hrange, Nat.le_refl _, hdevice, hg, hwanted⟩)
      exact Nat.lt_irrefl _ hlast.1
    · intro bus hbus device hdevice
      rw [← hplace bus]
      apply recorded_iff.mp
      intro f hf hwanted
      rw [hplace] at hwanted
      exact (hall ((mem_wantedFunctions (p := ⟨bus, device, f⟩) hrange).mpr
        ⟨hzero ▸ Nat.zero_le _, Nat.le_of_lt hbus, hdevice, hf, hwanted⟩)).2
    · rw [← hperm.length_eq, List.length_take]
      exact Nat.min_le_left _ _
  · intro h
    obtain ⟨hsilent, hserved, hroom⟩ := h
    have hperm : (addresses 0 bi.endPciBusnum (bi.recorded space)).Perm (bi.wantedFunctions space) := by
      apply (List.perm_ext_iff_of_nodup hnodup nodup_wantedFunctions).mpr
      intro p
      refine ⟨hsubset p, fun hp => ?_⟩
      obtain ⟨-, hbus, hdevice, hfunction, hwanted⟩ := (mem_wantedFunctions hrange).mp hp
      have hbefore : p.bus < bi.endPciBusnum := by
        apply Nat.lt_of_le_of_ne hbus
        intro hlast
        have hno := hsilent p.device hdevice p.function hfunction
        rw [← hlast] at hno
        exact absurd ((wanted_iff.mp hwanted).1.symm.trans hno) (by decide)
      have hdone := hserved p.bus hbefore p.device hdevice
      rw [← hplace p.bus] at hdone hwanted
      exact mem_addresses.mpr ⟨Nat.zero_le _, by omega, hdevice, recorded_iff.mpr hdone p.function hfunction hwanted⟩
    rw [List.take_of_length_le (hperm.length_eq ▸ hroom)]
    exact hperm

end PciBus

/-- `load_pcie_entry_info` appends one record for each function that is to be recorded, and no other, exactly when no
function of the range answers, or the range is mapped, starts with bus zero and has its last bus silent, each device on
the others is served, and there is memory for the records. -/
theorem appended_exact_iff (bi : PciBus) (hrange : bi.startPciBusnum ≤ bi.endPciBusnum) (hend : bi.endPciBusnum < 256)
    (space : ℕ → ℕ) (descriptions : ℕ → Option String) (mapped : Option ℕ) (room : ℕ) (pcieEntries : List PcieInfo) :
    ∃ appended, loadPcieEntryInfo bi space descriptions mapped room pcieEntries = pcieEntries ++ appended ∧
      (bi.Exact space appended ↔ bi.Covered space mapped room) := by
  have hnone : bi.wantedFunctions space = [] ↔
      ∀ bus, bi.startPciBusnum ≤ bus → bus ≤ bi.endPciBusnum → bi.Silent space bus := bi.wantedFunctions_eq_nil_iff hrange
  cases mapped with
  | none =>
    refine ⟨[], (List.append_nil _).symm, ?_⟩
    unfold PciBus.Exact PciBus.Covered
    rw [List.map_nil, List.nil_perm, hnone]
    simp
  | some base =>
    refine ⟨_, loadPcieEntryInfo_some bi space room pcieEntries, ?_⟩
    unfold PciBus.Exact PciBus.Covered
    rw [List.map_take, PciBus.numentries_eq hrange hend, PciBus.allRecords_address (by omega), ← hnone]
    by_cases hzero : bi.startPciBusnum = 0
    · rw [hzero, Nat.sub_zero, PciBus.perm_iff_of_start_zero hzero]
      constructor
      · intro h
        exact Or.inr ⟨rfl, rfl, h⟩
      · intro h
        cases h with
        | inl hempty =>
          have hsilent := hnone.mp hempty
          refine ⟨hsilent _ hrange (Nat.le_refl _), ?_, ?_⟩
          · intro bus hbus device hdevice
            have hbus' := hsilent bus (hzero ▸ Nat.zero_le bus) (Nat.le_of_lt hbus) device hdevice
            right
            refine ⟨hbus' 7 (by decide), fun f hf g hg hpresent => ?_⟩
            exact absurd (hpresent.symm.trans (hbus' g (by omega))) (by decide)
          · rw [hempty]
            exact Nat.zero_le room
        | inr h => exact h.2.2
    · rw [PciBus.perm_iff_of_start_pos (Nat.pos_of_ne_zero hzero) hrange]
      constructor
      · exact Or.inl
      · intro h
        exact h.resolve_right fun h => hzero h.2.1

/-- One device of one function, the first of all. -/
def loneDevice (a : ℕ) : ℕ := if a < 4096 then 0 else 0xFF

/-- No other function answers. -/
theorem loneDevice_present {b d f : ℕ} (h : PciBus.present ⟨0, 0, 0, 1⟩ loneDevice b d f = true) :
    b % 256 = 0 ∧ d % 32 = 0 ∧ f % 8 = 0 := by
  by_contra hother
  have haddress : 4096 ≤ busaddr b d f 0 0 := by
    rw [busaddr_eq]
    omega
  have hbytes : headerBytes (PciBus.functionHeader ⟨0, 0, 0, 1⟩ loneDevice b d f) 0 2 = leWord (fun _ => 0xFF) 2 := by
    apply leWord_congr
    intro k _
    apply if_neg
    change ¬ busaddr (b - 0) d f 0 0 + (0 + k) < 4096
    rw [Nat.sub_zero]
    omega
  exact of_decide_eq_true h (hbytes.trans (by decide))

/-- It is found. -/
theorem appended_exact_lone : ∃ appended,
    loadPcieEntryInfo ⟨0, 0, 0, 1⟩ loneDevice (fun _ => none) (some 4096) 1 [] = [] ++ appended ∧
      PciBus.Exact ⟨0, 0, 0, 1⟩ loneDevice appended := by
  obtain ⟨appended, happended, hiff⟩ := appended_exact_iff ⟨0, 0, 0, 1⟩ (by decide) (by decide) loneDevice (fun _ => none)
    (some 4096) 1 []
  refine ⟨appended, happended, hiff.mpr (Or.inr ⟨rfl, rfl, ?_, ?_, ?_⟩)⟩
  · intro device _ function _
    apply Bool.eq_false_of_not_eq_true
    intro hpresent
    exact absurd (loneDevice_present hpresent).1 (by decide)
  · intro bus _ device _
    right
    constructor
    · apply Bool.eq_false_of_not_eq_true
      intro hseven
      exact absurd (loneDevice_present hseven).2.2 (by decide)
    · intro f hf g hg _ hpresent
      have hzero := (loneDevice_present hpresent).2.2
      omega
  · have hsubset : PciBus.wantedFunctions ⟨0, 0, 0, 1⟩ loneDevice ⊆ [⟨0, 0, 0⟩] := by
      intro p hp
      obtain ⟨-, hbus, hdevice, hfunction, hwanted⟩ := (PciBus.mem_wantedFunctions (by decide)).mp hp
      obtain ⟨hb, hd, hf⟩ := loneDevice_present (PciBus.wanted_iff.mp hwanted).1
      change p.bus ≤ 1 at hbus
      obtain ⟨bus, device, function⟩ := p
      have hall : bus = 0 ∧ device = 0 ∧ function = 0 := by
        dsimp only at hbus hdevice hfunction hb hd hf
        omega
      rw [hall.1, hall.2.1, hall.2.2]
      exact List.mem_singleton_self _
    exact (List.subperm_of_subset PciBus.nodup_wantedFunctions hsubset).length_le

/-- A range of one bus, whose device is not found. -/
theorem appended_of_one_bus : ∃ appended,
    loadPcieEntryInfo ⟨0, 0, 0, 0⟩ (fun _ => 0) (fun _ => none) (some 4096) 65536 [] = [] ++ appended ∧
      ¬ PciBus.Exact ⟨0, 0, 0, 0⟩ (fun _ => 0) appended := by
  refine ⟨[], ?_, ?_⟩
  · rw [loadPcieEntryInfo_some, PciBus.numentries_eq (Nat.le_refl _) (by decide)]
    rfl
  · intro hexact
    have hfirst : (⟨0, 0, 0⟩ : FunctionAddress) ∈ PciBus.wantedFunctions ⟨0, 0, 0, 0⟩ (fun _ => 0) :=
      (PciBus.mem_wantedFunctions (Nat.le_refl _)).mpr ⟨Nat.le_refl _, Nat.le_refl _, by decide, by decide, rfl⟩
    exact absurd (hexact.mem_iff.mpr hfirst) List.not_mem_nil

end Cthulhu
