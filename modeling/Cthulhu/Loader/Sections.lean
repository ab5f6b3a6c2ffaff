import Cthulhu.Loader.Elf

/-!
# Section headers while the loader writes to them

The loader writes to the section headers of the image while it reads them: a section without file
bytes gets a new `sh_offset`. No other byte of the image changes, so that every other field of every
section header, and the file bytes of the sections, stay what they were.
-/

namespace Cthulhu

open Lib

/-- The `i`-th section header of the image. -/
def Kernel.sectionAt (s : Kernel) (base : ℕ) (header : Elf64Ehdr) (i : ℕ) : Elf64Shdr :=
  s.elfSection (sectionAddress base header i)

/-- The section is to be loaded. -/
def Elf64Shdr.Loaded (sh : Elf64Shdr) : Prop := sh.shType ≠ shtNull ∧ sh.isAlloc = true ∧ sh.shSize ≠ 0

instance (sh : Elf64Shdr) : Decidable sh.Loaded := inferInstanceAs (Decidable (_ ∧ _))

/-- The section has an address, and belongs to the user half. -/
def Elf64Shdr.Placed (sh : Elf64Shdr) : Prop := sh.shAddr ≠ 0 ∧ sh.shAddr + sh.shSize < userEnd

instance (sh : Elf64Shdr) : Decidable sh.Placed := inferInstanceAs (Decidable (_ ∧ _))

/-- The file bytes of the section lie in the address space, and outside the section headers. -/
def Elf64Shdr.FileApart (sh : Elf64Shdr) (base : ℕ) (header : Elf64Ehdr) : Prop :=
  base + sh.shOffset + sh.shSize ≤ 2 ^ 64 ∧
    (sh.shOffset + sh.shSize ≤ header.shoff ∨ header.shoff + 64 * header.shnum ≤ sh.shOffset)

instance (sh : Elf64Shdr) (base : ℕ) (header : Elf64Ehdr) : Decidable (sh.FileApart base header) :=
  inferInstanceAs (Decidable (_ ∧ _))

/-- An image at a kernel address whose header is accepted, whose sections belong to the user half, and
whose section headers overlap no section's file bytes. -/
structure LoadableImage (s : Kernel) (base : ℕ) (header : Elf64Ehdr) : Prop where
  read : s.elfHeader base = header
  accepted : checkElfHeader header = .loadSuccess
  kernel : isPhysical base = true
  table : base + header.shoff + 64 * header.shnum ≤ 2 ^ 64
  placed : ∀ i < header.shnum, (s.sectionAt base header i).Loaded → (s.sectionAt base header i).Placed
  file : ∀ i < header.shnum, (s.sectionAt base header i).Loaded →
    (s.sectionAt base header i).shType = shtProgbits → (s.sectionAt base header i).FileApart base header

/-- The byte belongs to the `sh_offset` of one of the first `n` sections, one without file bytes. -/
def Rewritable (s : Kernel) (base : ℕ) (header : Elf64Ehdr) (n a : ℕ) : Prop :=
  ∃ j < n, (s.sectionAt base header j).shType = shtNobits ∧
    base + header.shoff + 64 * j + 24 ≤ a ∧ a < base + header.shoff + 64 * j + 32

/-- No byte changed but those that the loader writes for the first `n` sections. -/
def ImageKept (base : ℕ) (header : Elf64Ehdr) (n : ℕ) (s s' : Kernel) : Prop :=
  ∀ a, ¬ Rewritable s base header n a → s'.bytes a = s.bytes a

section Bytes

variable {s s' : Kernel} {base n : ℕ} {header : Elf64Ehdr}

/-- A field is read from its bytes. -/
theorem Kernel.field_congr {a n : ℕ} (h : ∀ k < n, s'.bytes (add64 a k) = s.bytes (add64 a k)) :
    s'.field a n = s.field a n := leWord_congr h

/-- A store leaves the bytes elsewhere. -/
theorem Kernel.setField_bytes (s : Kernel) {a w x : ℕ} (hword : a + 8 ≤ 2 ^ 64) (hx : x < a ∨ a + 8 ≤ x) :
    (s.setField a w).bytes x = s.bytes x := by
  have hfold (l : List ℕ) (hl : ∀ k ∈ l, k < 8) (b : ℕ → ℕ) :
      l.foldl (fun b k => Function.update b (add64 a k) (byteOf w k)) b x = b x := by
    induction l generalizing b with
    | nil => rfl
    | cons k l ih =>
      rw [List.forall_mem_cons] at hl
      have hlt := hl.1
      have hne : x ≠ add64 a k := by
        rw [add64_of_lt (by omega)]
        omega
      rw [List.foldl_cons, ih hl.2, Function.update_of_ne hne]
  exact hfold (List.range 8) (fun k hk => List.mem_range.mp hk) s.bytes

/-- The address of a byte of a section header of the image. -/
theorem LoadableImage.sectionAddress (h : LoadableImage s base header) {i c : ℕ} (hi : i < header.shnum) (hc : c < 64) :
    add64 (Cthulhu.sectionAddress base header i) c = base + header.shoff + 64 * i + c := by
  have htable := h.table
  have hfirst : add64 base header.shoff = base + header.shoff := add64_of_lt (by omega)
  have hhere : add64 (base + header.shoff) (64 * i) = base + header.shoff + 64 * i := add64_of_lt (by omega)
  unfold Cthulhu.sectionAddress
  rw [hfirst, hhere, add64_of_lt (by omega)]

/-- A field of a section header stays as it was, unless it is the `sh_offset` of one of the first
sections. -/
theorem ImageKept.field (hkept : ImageKept base header n s s') (h : LoadableImage s base header) {i c len : ℕ}
    (hi : i < header.shnum) (hc : c < 64) (hlen : c + len ≤ 64) (hout : c + len ≤ 24 ∨ 32 ≤ c ∨ n ≤ i) :
    s'.field (add64 (Cthulhu.sectionAddress base header i) c) len =
      s.field (add64 (Cthulhu.sectionAddress base header i) c) len := by
  have htable := h.table
  rw [h.sectionAddress hi hc]
  refine Kernel.field_congr fun k hk => hkept _ ?_
  rw [add64_of_lt (by omega)]
  rintro ⟨j, hj, -, hlow, hhigh⟩
  omega

/-- What the loader reads of a section stays as it was. -/
theorem ImageKept.sectionAt (hkept : ImageKept base header n s s') (h : LoadableImage s base header) {i : ℕ}
    (hi : i < header.shnum) :
    (s'.sectionAt base header i).shType = (s.sectionAt base header i).shType ∧
      (s'.sectionAt base header i).shFlags = (s.sectionAt base header i).shFlags ∧
      (s'.sectionAt base header i).shAddr = (s.sectionAt base header i).shAddr ∧
      (s'.sectionAt base header i).shSize = (s.sectionAt base header i).shSize := by
  refine ⟨hkept.field h hi ?_ ?_ (Or.inl ?_), hkept.field h hi ?_ ?_ (Or.inl ?_), hkept.field h hi ?_ ?_ (Or.inl ?_),
    hkept.field h hi ?_ ?_ (Or.inr (Or.inl ?_))⟩
  all_goals decide

/-- The headers of the sections that follow are those of the image. -/
theorem ImageKept.sectionAt_eq (hkept : ImageKept base header n s s') (h : LoadableImage s base header) {i : ℕ}
    (hi : i < header.shnum) (hle : n ≤ i) : s'.sectionAt base header i = s.sectionAt base header i := by
  have hfield {c len : ℕ} (hc : c < 64) (hlen : c + len ≤ 64) := hkept.field h hi hc hlen (Or.inr (Or.inr hle))
  unfold Kernel.sectionAt Kernel.elfSection
  rw [hfield (show 4 < 64 by decide) (by decide), hfield (show 8 < 64 by decide) (by decide),
    hfield (show 16 < 64 by decide) (by decide), hfield (show 24 < 64 by decide) (by decide),
    hfield (show 32 < 64 by decide) (by decide), hfield (show 48 < 64 by decide) (by decide)]

/-- The file bytes of a section stay as they were. -/
theorem ImageKept.file (hkept : ImageKept base header n s s') (h : LoadableImage s base header)
    (hn : n ≤ header.shnum) {i k : ℕ} (hi : i < header.shnum) (hloaded : (s.sectionAt base header i).Loaded)
    (htype : (s.sectionAt base header i).shType = shtProgbits) (hk : k < (s.sectionAt base header i).shSize) :
    s'.bytes (base + (s.sectionAt base header i).shOffset + k) =
      s.bytes (base + (s.sectionAt base header i).shOffset + k) := by
  refine hkept _ ?_
  rintro ⟨j, hj, -, hlow, hhigh⟩
  rcases (h.file i hi hloaded htype).2 with hbefore | hbehind
  · omega
  · omega

/-- More bytes may have been written for more sections. -/
theorem ImageKept.next (hkept : ImageKept base header n s s') : ImageKept base header (n + 1) s s' := by
  intro a ha
  refine hkept a ?_
  rintro ⟨j, hj, hrest⟩
  exact ha ⟨j, Nat.lt_succ_of_lt hj, hrest⟩

/-- Writing the `sh_offset` of a section without file bytes keeps the image. -/
theorem ImageKept.setOffset (hkept : ImageKept base header n s s') (h : LoadableImage s base header)
    (hn : n < header.shnum) (htype : (s.sectionAt base header n).shType = shtNobits) (w : ℕ) :
    ImageKept base header (n + 1) s (s'.setField (add64 (Cthulhu.sectionAddress base header n) 24) w) := by
  have htable := h.table
  intro a ha
  rw [h.sectionAddress hn (by decide), Kernel.setField_bytes _ (by omega), hkept.next a ha]
  by_contra hinside
  exact ha ⟨n, Nat.lt_succ_self n, htype, by omega, by omega⟩

end Bytes

end Cthulhu
