import Cthulhu.Lib.Bytes
import Cthulhu.Memory.ModuleReturn

/-!
# The search for an ACPI table

`find_table_general` looks through the pointers of the RSDT or, from version 2 on, of the XSDT. The pointers
of the XSDT are eight bytes wide and follow a header of 36 bytes. The field that stands for the first of them is
aligned to its own size and lies four bytes behind it, so that every pointer that is read
is made of the halves of two. Where it leads, memory need not be mapped.
-/

namespace Cthulhu

open Lib

/-- The bytes of memory by their virtual addresses, which of them are mapped, and what `init_table_acpi` found. No
address is mapped that is not canonical. -/
structure Acpi where
  memory : ℕ → ℕ
  mapped : ℕ → Bool
  acpiVersion : ℕ
  rsdt : ℕ
  xsdt : ℕ
  canonical : ∀ a, mapped a = true → a < 2 ^ 47 ∨ 2 ^ 64 - 2 ^ 47 ≤ a

/-- `sizeof(ACPISDTHeader)`. -/
def acpiHeaderSize : ℕ := 36

/-- The offset of `PointerToOtherSDT`, a field of so many bytes behind the header, in an unpacked structure. -/
def pointerToOtherSDT (width : ℕ) : ℕ := alignUp acpiHeaderSize width

/-- `strncmp` finds no difference in the first bytes of two strings; none where it faults on the first of them. -/
def strncmp (a : ℕ → Option ℕ) (b : ℕ → ℕ) : ℕ → Option Bool
  | 0 => some true
  | n + 1 => (a 0).bind fun c =>
    if c = b 0 then if c = 0 then some true else strncmp (fun k => a (k + 1)) (fun k => b (k + 1)) n else some false

namespace Acpi

variable (acpi : Acpi)

/-- The byte at an address. -/
def byte (address : ℕ) : ℕ := acpi.memory (address % 2 ^ 64) % 256

/-- The number of so many bytes at an address. -/
def number (address width : ℕ) : ℕ := leWord (fun k => acpi.byte (address + k)) width

/-- So many bytes from the address on are mapped. -/
def readable (address width : ℕ) : Bool := (List.range width).all fun k => acpi.mapped ((address + k) % 2 ^ 64)

/-- A byte as it is read; none where the read faults. -/
def readByte (address : ℕ) : Option ℕ := if acpi.readable address 1 then some (acpi.byte address) else none

/-- A number as it is read. -/
def readNumber (address width : ℕ) : Option ℕ :=
  if acpi.readable address width then some (acpi.number address width) else none

/-- `h->Length`. -/
def length (h : ℕ) : ℕ := acpi.number (h + 4) 4

/-- `acpisdt_checksum`, which reads the length and so many bytes. -/
def acpisdtChecksum (th : ℕ) : Option Bool :=
  if acpi.readable (th + 4) 4 && acpi.readable th (acpi.length th) then
    some ((List.range (acpi.length th)).foldl (fun sum i => (sum + acpi.byte (th + i)) % 256) 0 == 0)
  else none

/-- The table at `h` has the signature and passes its checksum. -/
def isTable (name : List ℕ) (h : ℕ) : Option Bool :=
  (strncmp (fun k => acpi.readByte (h + k)) (fun k => name.getD k 0) 4).bind fun same =>
    if same then acpi.acpisdtChecksum h else some false

/-- The number of entries that `Length` leaves room for. A negative one enters no round. -/
def entries (table width : ℕ) : ℕ :=
  let entries := sub64 (acpi.length table) acpiHeaderSize / width % 2 ^ 32
  if entries < 2 ^ 31 then entries else 0

/-- `(&table->PointerToOtherSDT)[i]`. -/
def pointer (table width i : ℕ) : Option ℕ := acpi.readNumber (table + pointerToOtherSDT width + width * i) width

/-- The rounds of `find_table_general` over one table; zero is `NULL`, and none a fault. -/
def findTable (name : List ℕ) (table width : ℕ) : List ℕ → Option ℕ
  | [] => some 0
  | i :: rest =>
    (acpi.pointer table width i).bind fun p =>
      (acpi.isTable name (physicalToVirtual p)).bind fun found =>
        if found then some (physicalToVirtual p) else findTable name table width rest

/-- `find_table_general`. -/
def findTableGeneral (name : List ℕ) : Option ℕ :=
  if acpi.acpiVersion = 1 then
    if acpi.rsdt = 0 then some 0
    else if acpi.readable (acpi.rsdt + 4) 4 then
      acpi.findTable name acpi.rsdt 4 (List.range (acpi.entries acpi.rsdt 4))
    else none
  else
    if acpi.xsdt = 0 then some 0
    else if acpi.readable (acpi.xsdt + 4) 4 then
      acpi.findTable name acpi.xsdt 8 (List.range (acpi.entries acpi.xsdt 8))
    else none

/-- There is a valid table of the signature at the physical address. -/
def Valid (name : List ℕ) (p : ℕ) : Prop := acpi.isTable name (physicalToVirtual p) = some true

instance (name : List ℕ) (p : ℕ) : Decidable (acpi.Valid name p) := inferInstanceAs (Decidable (_ = _))

/-- The first of the addresses that has a valid table, as a pointer, and `NULL` without one. -/
def firstTable (name : List ℕ) (addresses : List ℕ) : ℕ :=
  ((addresses.find? fun p => acpi.Valid name p).map physicalToVirtual).getD 0

/-- A table is mapped, the header and right behind it these addresses, and each of them is that of a table that is
mapped. -/
structure Encodes (table width : ℕ) (addresses : List ℕ) : Prop where
  found : table ≠ 0
  length : acpi.length table = acpiHeaderSize + width * addresses.length
  mapped : acpi.readable table (acpi.length table) = true
  address : ∀ i (hi : i < addresses.length), acpi.number (table + acpiHeaderSize + width * i) width = addresses[i]
  tables : ∀ p ∈ addresses, physicalToVirtual p ≠ 0 ∧
    acpi.readable (physicalToVirtual p) (max acpiHeaderSize (acpi.length (physicalToVirtual p))) = true

/-- The table that the version selects lists these addresses. -/
def Lists (addresses : List ℕ) : Prop :=
  if acpi.acpiVersion = 1 then acpi.Encodes acpi.rsdt 4 addresses else acpi.Encodes acpi.xsdt 8 addresses

/-- The addresses made of the upper half of one address and the lower half of the next, the last one with what lies
behind the table, if that can be read. -/
def straddled (addresses : List ℕ) (behind : Option ℕ) : List (Option ℕ) :=
  List.zipWith (fun a b => b.map fun b => a / 2 ^ 32 + 2 ^ 32 * (b % 2 ^ 32)) addresses
    (addresses.tail.map some ++ [behind])

/-- The four bytes behind a table. -/
def behind (table : ℕ) : Option ℕ := acpi.readNumber (table + acpi.length table) 4

/-- The address can be read, and where it leads there is no valid table, which needs no unmapped byte to be seen. -/
def Passed (name : List ℕ) (p : Option ℕ) : Prop := ∃ q, p = some q ∧ acpi.isTable name (physicalToVirtual q) = some false

/-- The straddled addresses do no harm: those in front of some place are passed, and either this is the end and no
listed table is valid, or there is a valid table at that place, the same one as the first of the list, or at `NULL`
where the list has none. -/
def Harmless (name addresses : List ℕ) (behind : Option ℕ) : Prop :=
  ∃ front rest, straddled addresses behind = front ++ rest ∧ (∀ p ∈ front, acpi.Passed name p) ∧
    ((rest = [] ∧ ∀ a ∈ addresses, ¬ acpi.Valid name a) ∨
      ∃ q, rest.head? = some (some q) ∧ acpi.Valid name q ∧
        ((physicalToVirtual q = 0 ∧ ∀ a ∈ addresses, ¬ acpi.Valid name a) ∨
          ∃ before a after, addresses = before ++ a :: after ∧ (∀ b ∈ before, ¬ acpi.Valid name b) ∧
            acpi.Valid name a ∧ physicalToVirtual q = physicalToVirtual a))

variable {acpi} {name addresses : List ℕ} {table width : ℕ}

/-- The rounds return a pointer exactly when they pass some addresses and then are at their end, or at a valid table. -/
theorem findTable_eq_some_iff (rounds : List ℕ) {h : ℕ} :
    acpi.findTable name table width rounds = some h ↔
      ∃ front rest, rounds.map (acpi.pointer table width) = front ++ rest ∧ (∀ p ∈ front, acpi.Passed name p) ∧
        ((rest = [] ∧ h = 0) ∨ ∃ q, rest.head? = some (some q) ∧ acpi.Valid name q ∧ physicalToVirtual q = h) := by
  induction rounds with
  | nil =>
    constructor
    · intro hzero
      exact ⟨[], [], rfl, by simp, Or.inl ⟨rfl, (Option.some.inj hzero).symm⟩⟩
    · rintro ⟨front, rest, hsplit, -, hend⟩
      obtain ⟨-, rfl⟩ := List.append_eq_nil_iff.mp hsplit.symm
      rcases hend with ⟨-, rfl⟩ | ⟨q, hq, -⟩
      · rfl
      · exact absurd hq (by simp)
  | cons i rounds ih =>
    rw [findTable, List.map_cons]
    constructor
    · intro hfound
      obtain ⟨p, hp, hfound⟩ := Option.bind_eq_some_iff.mp hfound
      obtain ⟨found, hvalid, hfound⟩ := Option.bind_eq_some_iff.mp hfound
      rw [hp]
      cases found with
      | true => exact ⟨[], _, rfl, by simp, Or.inr ⟨p, rfl, hvalid, Option.some.inj hfound⟩⟩
      | false =>
        obtain ⟨front, rest, hsplit, hpassed, hend⟩ := ih.mp hfound
        refine ⟨some p :: front, rest, by rw [hsplit, List.cons_append], ?_, hend⟩
        rw [List.forall_mem_cons]
        exact ⟨⟨p, rfl, hvalid⟩, hpassed⟩
    · rintro ⟨front, rest, hsplit, hpassed, hend⟩
      cases front with
      | nil =>
        rcases hend with ⟨rfl, -⟩ | ⟨q, hq, hvalid, rfl⟩
        · exact absurd hsplit (by simp)
        · rw [List.nil_append] at hsplit
          rw [← hsplit, List.head?_cons] at hq
          rw [Option.some.inj hq, Option.bind_some, show acpi.isTable name (physicalToVirtual q) = some true from hvalid]
          rfl
      | cons p front =>
        rw [List.forall_mem_cons] at hpassed
        obtain ⟨hhead, htail⟩ := List.cons.inj hsplit
        obtain ⟨⟨q, rfl, hmissed⟩, hpassed⟩ := hpassed
        rw [hhead, Option.bind_some, hmissed]
        exact ih.mpr ⟨front, rest, htail, hpassed, hend⟩

/-- What is returned for a list: the first valid table, or `NULL` where there is none. -/
theorem firstTable_eq_iff {h : ℕ} : acpi.firstTable name addresses = h ↔
    (h = 0 ∧ ∀ a ∈ addresses, ¬ acpi.Valid name a) ∨
      ∃ before a after, addresses = before ++ a :: after ∧ (∀ b ∈ before, ¬ acpi.Valid name b) ∧
        acpi.Valid name a ∧ h = physicalToVirtual a := by
  unfold firstTable
  constructor
  · rintro rfl
    cases hfind : addresses.find? fun p => acpi.Valid name p with
    | none =>
      rw [List.find?_eq_none] at hfind
      exact Or.inl ⟨rfl, fun a ha => by simpa using hfind a ha⟩
    | some a =>
      obtain ⟨hvalid, before, after, hsplit, hbefore⟩ := List.find?_eq_some_iff_append.mp hfind
      exact Or.inr ⟨before, a, after, hsplit, fun b hb => by simpa using hbefore b hb, of_decide_eq_true hvalid, rfl⟩
  · rintro (⟨rfl, hnone⟩ | ⟨before, a, after, rfl, hbefore, hvalid, rfl⟩)
    · rw [List.find?_eq_none.mpr fun a ha => by simpa using hnone a ha]
      rfl
    · have hfind : (before ++ a :: after).find? (fun p => acpi.Valid name p) = some a :=
        List.find?_eq_some_iff_append.mpr
          ⟨decide_eq_true hvalid, before, after, rfl, fun b hb => by simpa using hbefore b hb⟩
      rw [hfind]
      rfl

/-- A list of tables has `NULL` for its first valid table only where none is valid. -/
theorem Encodes.firstTable_eq_zero_iff (h : acpi.Encodes table width addresses) :
    acpi.firstTable name addresses = 0 ↔ ∀ a ∈ addresses, ¬ acpi.Valid name a := by
  rw [firstTable_eq_iff]
  constructor
  · rintro (⟨-, hnone⟩ | ⟨before, a, after, hsplit, -, -, hzero⟩)
    · exact hnone
    · exact absurd hzero.symm (h.tables a (by rw [hsplit]; simp)).1
  · exact fun hnone => Or.inl ⟨rfl, hnone⟩

/-- Fewer bytes in the same place can be read. -/
theorem readable_of_le {start count at' n : ℕ} (h : acpi.readable start count = true) (hlow : start ≤ at')
    (hend : at' + n ≤ start + count) : acpi.readable at' n = true := by
  unfold readable at h ⊢
  rw [List.all_eq_true] at h ⊢
  intro k hk
  have hoff := h (at' + k - start) (List.mem_range.mpr (by have := List.mem_range.mp hk; omega))
  rwa [show start + (at' + k - start) = at' + k by omega] at hoff

/-- A signature that can be read is compared to its end. -/
theorem strncmp_isSome {a : ℕ → Option ℕ} {b : ℕ → ℕ} {n : ℕ} (h : ∀ k < n, a k ≠ none) : strncmp a b n ≠ none := by
  induction n generalizing a b with
  | zero => exact Option.some_ne_none _
  | succ n ih =>
    obtain ⟨c, hc⟩ := Option.ne_none_iff_exists'.mp (h 0 (Nat.succ_pos n))
    rw [strncmp, hc, Option.bind_some]
    split
    · split
      · exact Option.some_ne_none _
      · exact ih fun k hk => h (k + 1) (Nat.succ_lt_succ hk)
    · exact Option.some_ne_none _

/-- Whether a mapped table is valid can be seen. -/
theorem isTable_isSome {h : ℕ} (hmapped : acpi.readable h (max acpiHeaderSize (acpi.length h)) = true) :
    acpi.isTable name h ≠ none := by
  have hheader : acpiHeaderSize ≤ max acpiHeaderSize (acpi.length h) := Nat.le_max_left _ _
  have hsame : strncmp (fun k => acpi.readByte (h + k)) (fun k => name.getD k 0) 4 ≠ none := by
    apply strncmp_isSome
    intro k hk
    change 36 ≤ _ at hheader
    unfold readByte
    rw [if_pos (readable_of_le hmapped (by omega) (by omega))]
    exact Option.some_ne_none _
  obtain ⟨same, hsame⟩ := Option.ne_none_iff_exists'.mp hsame
  rw [isTable, hsame, Option.bind_some]
  split
  · unfold acpisdtChecksum
    change 36 ≤ _ at hheader
    rw [readable_of_le hmapped (by omega) (by omega), readable_of_le hmapped (Nat.le_refl h) (by omega)]
    exact Option.some_ne_none _
  · exact Option.some_ne_none _

/-- Eight bytes are two numbers of four. -/
theorem number_eight (address : ℕ) :
    acpi.number address 8 = acpi.number address 4 + 2 ^ 32 * acpi.number (address + 4) 4 := by
  unfold number
  rw [leWord_add _ 4 4]
  simp only [Nat.add_assoc]
  rfl

/-- A number of so many bytes is below their power. -/
theorem number_lt (address width : ℕ) : acpi.number address width < 256 ^ width := leWord_lt _ _

/-- The length of a table that lists addresses can be read. -/
theorem Encodes.readLength (h : acpi.Encodes table width addresses) : acpi.readable (table + 4) 4 = true := by
  have hlength : 36 ≤ acpi.length table := by
    rw [h.length]
    exact Nat.le_add_right 36 _
  exact readable_of_le h.mapped (by omega) (by omega)

/-- The count of the entries of a table that lists addresses. -/
theorem Encodes.entries (h : acpi.Encodes table width addresses) (hwidth : 2 ≤ width) :
    acpi.entries table width = addresses.length := by
  have hlength : acpi.length table < 256 ^ 4 := number_lt _ _
  have hcount : 2 * addresses.length ≤ width * addresses.length := Nat.mul_le_mul_right _ hwidth
  rw [h.length] at hlength
  unfold Acpi.entries
  dsimp only
  rw [h.length, sub64_of_le (Nat.le_add_right _ _), Nat.add_sub_cancel_left,
    Nat.mul_div_cancel_left _ (Nat.lt_of_lt_of_le Nat.two_pos hwidth), Nat.mod_eq_of_lt (by omega), if_pos (by omega)]

/-- The bytes of an entry lie in the table. -/
theorem Encodes.readable_entry (h : acpi.Encodes table width addresses) {i : ℕ} (hi : i < addresses.length) :
    acpi.readable (table + acpiHeaderSize + width * i) width = true := by
  have hroom : width * (i + 1) ≤ width * addresses.length := Nat.mul_le_mul_left _ hi
  rw [Nat.mul_add, Nat.mul_one] at hroom
  apply readable_of_le h.mapped
  · omega
  · rw [h.length]
    omega

/-- The pointers of the RSDT are the addresses it lists. -/
theorem Encodes.pointers_rsdt (h : acpi.Encodes table 4 addresses) :
    (List.range addresses.length).map (acpi.pointer table 4) = addresses.map some := by
  apply List.ext_getElem
  · rw [List.length_map, List.length_range, List.length_map]
  · intro i _ hi
    rw [List.length_map] at hi
    rw [List.getElem_map, List.getElem_range, List.getElem_map]
    change (if acpi.readable (table + acpiHeaderSize + 4 * i) 4 then
      some (acpi.number (table + acpiHeaderSize + 4 * i) 4) else none) = _
    rw [if_pos (h.readable_entry hi), h.address i hi]

/-- The halves of an address of the XSDT. -/
theorem Encodes.halves (h : acpi.Encodes table 8 addresses) (i : ℕ) (hi : i < addresses.length) :
    acpi.number (table + acpiHeaderSize + 8 * i) 4 = addresses[i] % 2 ^ 32 ∧
      acpi.number (table + acpiHeaderSize + 8 * i + 4) 4 = addresses[i] / 2 ^ 32 := by
  have hlow : acpi.number (table + acpiHeaderSize + 8 * i) 4 < 256 ^ 4 := number_lt _ _
  have hword := h.address i hi
  rw [number_eight] at hword
  omega

/-- The four bytes that follow an address of the XSDT are the lower half of the next, or lie behind the table. -/
theorem Encodes.next (h : acpi.Encodes table 8 addresses) (i : ℕ) (hi : i < addresses.length)
    (hi' : i < (addresses.tail.map some ++ [acpi.behind table]).length) :
    acpi.readNumber (table + acpiHeaderSize + 8 * (i + 1)) 4 =
      (addresses.tail.map some ++ [acpi.behind table])[i].map fun b => b % 2 ^ 32 := by
  by_cases hlast : i < addresses.tail.length
  · have hnext : i + 1 < addresses.length := by
      rw [List.length_tail] at hlast
      omega
    have hread := h.readable_entry hnext
    rw [List.getElem_append_left (by rwa [List.length_map]), List.getElem_map, List.getElem_tail, Option.map_some,
      ← (h.halves (i + 1) hnext).1, readNumber, if_pos (readable_of_le hread (Nat.le_refl _) (by omega))]
  · have hend : i + 1 = addresses.length := by
      rw [List.length_tail] at hlast
      omega
    rw [List.getElem_append_right (by rw [List.length_map]; omega), List.getElem_singleton, hend, behind, h.length,
      ← Nat.add_assoc]
    unfold readNumber
    split
    · have hlt : acpi.number (table + acpiHeaderSize + 8 * addresses.length) 4 < 2 ^ 32 := number_lt _ _
      rw [Option.map_some, Nat.mod_eq_of_lt hlt]
    · rfl

/-- Eight bytes can be read where the first four can, exactly when the last four can. -/
theorem readNumber_eight {address : ℕ} (h : acpi.readable address 4 = true) :
    acpi.readNumber address 8 =
      (acpi.readNumber (address + 4) 4).map fun upper => acpi.number address 4 + 2 ^ 32 * upper := by
  have hsplit : acpi.readable address 8 = acpi.readable (address + 4) 4 := by
    have hrange : List.range 8 = List.range 4 ++ (List.range 4).map (4 + ·) := by decide
    have hfirst := h
    unfold readable at h ⊢
    rw [hrange, List.all_append, h, Bool.true_and, List.all_map]
    simp only [Function.comp_def, Nat.add_assoc]
  unfold readNumber
  rw [hsplit, number_eight]
  split <;> rfl

/-- The pointers of the XSDT straddle the addresses it lists. -/
theorem Encodes.pointers_xsdt (h : acpi.Encodes table 8 addresses) :
    (List.range addresses.length).map (acpi.pointer table 8) = straddled addresses (acpi.behind table) := by
  apply List.ext_getElem
  · rw [List.length_map, List.length_range, straddled, List.length_zipWith, List.length_append, List.length_map,
      List.length_tail, List.length_singleton]
    omega
  · intro i hi _
    rw [List.length_map, List.length_range] at hi
    have hupper : table + pointerToOtherSDT 8 + 8 * i = table + acpiHeaderSize + 8 * i + 4 :=
      Nat.add_right_comm (table + 36) 4 (8 * i)
    have hlower : table + acpiHeaderSize + 8 * i + 4 + 4 = table + acpiHeaderSize + 8 * (i + 1) := by omega
    have hread := h.readable_entry hi
    simp only [straddled, List.getElem_map, List.getElem_range, List.getElem_zipWith]
    rw [pointer, hupper, readNumber_eight (readable_of_le hread (by omega) (by omega)), hlower, (h.halves i hi).2,
      h.next i hi (by simp; omega), Option.map_map]
    rfl

/-- The RSDT leads to the first valid table of its list. -/
theorem Encodes.findTable_rsdt (h : acpi.Encodes table 4 addresses) :
    acpi.findTable name table 4 (List.range (acpi.entries table 4)) = some (acpi.firstTable name addresses) := by
  have hpassed {a : ℕ} (ha : a ∈ addresses) (hmissed : ¬ acpi.Valid name a) : acpi.Passed name (some a) := by
    refine ⟨a, rfl, ?_⟩
    have hsome : acpi.isTable name (physicalToVirtual a) ≠ none := isTable_isSome (h.tables a ha).2
    unfold Valid at hmissed
    generalize acpi.isTable name (physicalToVirtual a) = found at hsome hmissed
    cases found with
    | none => exact absurd rfl hsome
    | some found => cases found <;> simp_all
  rw [findTable_eq_some_iff, h.entries (by decide), h.pointers_rsdt]
  have hfirst : acpi.firstTable name addresses = acpi.firstTable name addresses := rfl
  rcases firstTable_eq_iff.mp hfirst with
    ⟨hzero, hnone⟩ | ⟨before, a, after, hsplit, hbefore, hvalid, hfirst⟩
  · refine ⟨addresses.map some, [], (List.append_nil _).symm, ?_, Or.inl ⟨rfl, hzero⟩⟩
    rw [List.forall_mem_map]
    exact fun a ha => hpassed ha (hnone a ha)
  · refine ⟨before.map some, some a :: after.map some, ?_, ?_, Or.inr ⟨a, rfl, hvalid, hfirst.symm⟩⟩
    · rw [hsplit, List.map_append, List.map_cons]
    · rw [List.forall_mem_map]
      exact fun b hb => hpassed (by rw [hsplit]; exact List.mem_append_left _ hb) (hbefore b hb)

/-- The XSDT leads to the first valid table of its list exactly when the straddled addresses do no harm. -/
theorem Encodes.findTable_xsdt_iff (h : acpi.Encodes table 8 addresses) :
    acpi.findTable name table 8 (List.range (acpi.entries table 8)) = some (acpi.firstTable name addresses) ↔
      acpi.Harmless name addresses (acpi.behind table) := by
  rw [findTable_eq_some_iff, h.entries (by decide), h.pointers_xsdt]
  unfold Harmless
  refine exists_congr fun front => exists_congr fun rest => and_congr_right fun _ => and_congr_right fun _ =>
    or_congr (and_congr_right fun _ => ?_) (exists_congr fun q => and_congr_right fun _ => and_congr_right fun _ => ?_)
  · exact h.firstTable_eq_zero_iff
  · rw [eq_comm, firstTable_eq_iff]

/-- With version 1 `find_table_general` returns the first valid table of the list. -/
theorem Encodes.findTableGeneral_rsdt (h : acpi.Encodes acpi.rsdt 4 addresses) (hversion : acpi.acpiVersion = 1) :
    acpi.findTableGeneral name = some (acpi.firstTable name addresses) := by
  unfold findTableGeneral
  rw [if_pos hversion, if_neg h.found, if_pos h.readLength, h.findTable_rsdt]

/-- With a later version it does exactly when the straddled addresses do no harm. -/
theorem Encodes.findTableGeneral_xsdt_iff (h : acpi.Encodes acpi.xsdt 8 addresses) (hversion : acpi.acpiVersion ≠ 1) :
    acpi.findTableGeneral name = some (acpi.firstTable name addresses) ↔
      acpi.Harmless name addresses (acpi.behind acpi.xsdt) := by
  unfold findTableGeneral
  rw [if_neg hversion, if_neg h.found, if_pos h.readLength, h.findTable_xsdt_iff]

/-- With every address below 4 GiB, what straddles them is a multiple of 4 GiB. -/
theorem straddled_low {behind : Option ℕ} {q : ℕ} (hlow : ∀ a ∈ addresses, a < 2 ^ 32)
    (hq : some q ∈ straddled addresses behind) : q % 2 ^ 32 = 0 ∧ q < 2 ^ 64 := by
  obtain ⟨i, hi, hget⟩ := List.getElem_of_mem hq
  have hlength : i < addresses.length := by
    rw [straddled, List.length_zipWith] at hi
    exact Nat.lt_of_lt_of_le hi (Nat.min_le_left _ _)
  have ha := hlow _ (List.getElem_mem hlength)
  simp only [straddled, List.getElem_zipWith] at hget
  obtain ⟨b, -, rfl⟩ := Option.map_eq_some_iff.mp hget
  rw [Nat.div_eq_of_lt ha, Nat.zero_add]
  omega

/-- With every address below 4 GiB and a valid table among them, the straddled addresses do harm. -/
theorem not_harmless_low {behind : Option ℕ} (hlow : ∀ a ∈ addresses, 0 < a ∧ a < 2 ^ 32)
    (hvalid : ∃ a ∈ addresses, acpi.Valid name a) : ¬ acpi.Harmless name addresses behind := by
  rintro ⟨front, rest, hsplit, -, ⟨-, hnone⟩ | ⟨q, hq, -, ⟨-, hnone⟩ | ⟨before, a, after, haddresses, -, -, hsame⟩⟩⟩
  · obtain ⟨a, ha, hfound⟩ := hvalid
    exact hnone a ha hfound
  · obtain ⟨a, ha, hfound⟩ := hvalid
    exact hnone a ha hfound
  · have hmem : some q ∈ straddled addresses behind := by
      rw [hsplit]
      exact List.mem_append_right _ (List.mem_of_mem_head? hq)
    obtain ⟨hmultiple, hword⟩ := straddled_low (fun a ha => (hlow a ha).2) hmem
    obtain ⟨hpos, hsmall⟩ := hlow a (by rw [haddresses]; simp)
    unfold physicalToVirtual add64 at hsame
    split at hsame <;> split at hsame <;> omega

end Acpi

/-- `find_table_general` returns the first valid table of a list exactly when the list is an RSDT, or the addresses
that straddle it do no harm. On the same condition the XSDT of a list gives the answer of its RSDT. They do harm
to every list of addresses below 4 GiB that has a valid table. -/
theorem findTableGeneral_first_iff (acpi : Acpi) (name addresses : List ℕ) :
    (acpi.Lists addresses →
      (acpi.findTableGeneral name = some (acpi.firstTable name addresses) ↔
        acpi.acpiVersion = 1 ∨ acpi.Harmless name addresses (acpi.behind acpi.xsdt))) ∧
    (acpi.Encodes acpi.rsdt 4 addresses → acpi.Encodes acpi.xsdt 8 addresses →
      (({ acpi with acpiVersion := 2 } : Acpi).findTableGeneral name =
          ({ acpi with acpiVersion := 1 } : Acpi).findTableGeneral name ↔
        acpi.Harmless name addresses (acpi.behind acpi.xsdt))) ∧
    ((∀ a ∈ addresses, 0 < a ∧ a < 2 ^ 32) → (∃ a ∈ addresses, acpi.Valid name a) →
      ¬ acpi.Harmless name addresses (acpi.behind acpi.xsdt)) := by
  refine ⟨fun h => ?_, fun hrsdt hxsdt => ?_, fun hlow hvalid => Acpi.not_harmless_low hlow hvalid⟩
  · unfold Acpi.Lists at h
    by_cases hversion : acpi.acpiVersion = 1
    · rw [if_pos hversion] at h
      exact ⟨fun _ => Or.inl hversion, fun _ => h.findTableGeneral_rsdt hversion⟩
    · rw [if_neg hversion] at h
      rw [h.findTableGeneral_xsdt_iff hversion]
      exact ⟨Or.inr, fun hright => hright.resolve_left hversion⟩
  · have hone : ({ acpi with acpiVersion := 1 } : Acpi).Encodes acpi.rsdt 4 addresses :=
      ⟨hrsdt.found, hrsdt.length, hrsdt.mapped, hrsdt.address, hrsdt.tables⟩
    have htwo : ({ acpi with acpiVersion := 2 } : Acpi).Encodes acpi.xsdt 8 addresses :=
      ⟨hxsdt.found, hxsdt.length, hxsdt.mapped, hxsdt.address, hxsdt.tables⟩
    have htwo_ne : (2 : ℕ) ≠ 1 := by decide
    rw [hone.findTableGeneral_rsdt rfl]
    exact htwo.findTableGeneral_xsdt_iff htwo_ne

/-- The addresses of the slot that physical memory is mapped in. -/
def mirrorMapped (a : ℕ) : Bool := decide (0xFFFFFF0000000000 ≤ a) && decide (a < 0xFFFFFF8000000000)

/-- They are canonical. -/
theorem mirrorMapped_canonical (a : ℕ) (h : mirrorMapped a = true) : a < 2 ^ 47 ∨ 2 ^ 64 - 2 ^ 47 ≤ a := by
  rw [mirrorMapped, Bool.and_eq_true, decide_eq_true_eq] at h
  omega

/-- A FADT at `0x1000` with an RSDT and an XSDT that list it, in the mapping of the physical memory. -/
def listedFadt : Acpi where
  memory := fun a => ([(0xFFFFFF0000001000, 70), (0xFFFFFF0000001001, 65), (0xFFFFFF0000001002, 67),
    (0xFFFFFF0000001003, 80), (0xFFFFFF0000001004, 36), (0xFFFFFF0000001009, 194), (0xFFFFFF0000002004, 40),
    (0xFFFFFF0000002025, 16), (0xFFFFFF0000003004, 44), (0xFFFFFF0000003025, 16),
    (0xFFFFFF000000302C, 1)].lookup a).getD 0
  mapped := mirrorMapped
  acpiVersion := 1
  rsdt := 0xFFFFFF0000002000
  xsdt := 0xFFFFFF0000003000
  canonical := mirrorMapped_canonical

/-- Both tables list it. -/
theorem listedFadt_encodes : listedFadt.Encodes listedFadt.rsdt 4 [0x1000] ∧
    listedFadt.Encodes listedFadt.xsdt 8 [0x1000] := by
  constructor
  · exact ⟨by decide, by decide +kernel, by decide +kernel, by decide +kernel, by decide +kernel⟩
  · exact ⟨by decide, by decide +kernel, by decide +kernel, by decide +kernel, by decide +kernel⟩

/-- The RSDT leads to the FADT, and the XSDT does not give the same answer. -/
theorem findTableGeneral_first_fadt : listedFadt.findTableGeneral [70, 65, 67, 80] = some 0xFFFFFF0000001000 ∧
    ({ listedFadt with acpiVersion := 2 } : Acpi).findTableGeneral [70, 65, 67, 80] ≠
      ({ listedFadt with acpiVersion := 1 } : Acpi).findTableGeneral [70, 65, 67, 80] := by
  have hfirst : listedFadt.firstTable [70, 65, 67, 80] [0x1000] = 0xFFFFFF0000001000 := by decide +kernel
  obtain ⟨hright, hagree, hharm⟩ := findTableGeneral_first_iff listedFadt [70, 65, 67, 80] [0x1000]
  constructor
  · rw [← hfirst]
    exact (hright listedFadt_encodes.1).mpr (Or.inl rfl)
  · rw [Ne, hagree listedFadt_encodes.1 listedFadt_encodes.2]
    exact hharm (by decide) (by decide +kernel)

/-- The XSDT that lists the FADT leads to no table. -/
theorem findTableGeneral_misses_fadt :
    ({ listedFadt with acpiVersion := 2 } : Acpi).Lists [0x1000] ∧
      ({ listedFadt with acpiVersion := 2 } : Acpi).findTableGeneral [70, 65, 67, 80] = some 0 ∧
      ({ listedFadt with acpiVersion := 2 } : Acpi).firstTable [70, 65, 67, 80] [0x1000] = 0xFFFFFF0000001000 := by
  have hlisted : ({ listedFadt with acpiVersion := 2 } : Acpi).Encodes 0xFFFFFF0000003000 8 [0x1000] :=
    ⟨by decide, by decide +kernel, by decide +kernel, by decide +kernel, by decide +kernel⟩
  exact ⟨hlisted, by decide +kernel, by decide +kernel⟩

end Cthulhu
