import Cthulhu.Loader.Copy
import Cthulhu.Process.VaAreas

/-!
# Where the bytes of an address space are

A byte that an address space shows is in a frame, or at a kernel address. The code reaches it through
the pointer it computes for the address. Writes through such a pointer are described by the places
they put bytes at: everything else stays, and so does every translation when no place is in a table.
-/

namespace Cthulhu

open Lib

/-- Where a byte is. -/
inductive Place
  | frame (f offs : ℕ)
  | kernel (a : ℕ)
  deriving DecidableEq, Repr

/-- A frame that is not null is behind its mirror. -/
theorem frameMemory_of_ne {paddress : ℕ} (h : paddress ≠ 0) (offs : ℕ) :
    frameMemory paddress offs = .mirror paddress offs := if_neg h

namespace Kernel

variable (s : Kernel)

/-- The byte at a place. -/
def byteAt : Place → ℕ
  | .frame f offs => readByte (s.machine.memory f) offs
  | .kernel a => s.bytes a % 256

/-- Where an address space has the byte of an address. -/
def place (cr3 va : ℕ) : Place :=
  if isPhysical va then .kernel va else .frame (frameOf (leafEntry s.machine.memory cr3 va)) (va % 0x1000)

/-- What an address space shows at an address: a kernel byte, or the byte of a user page. -/
def seenByte (cr3 va : ℕ) : Option ℕ := if isPhysical va then some (s.bytes va % 256) else s.userByte cr3 va

/-- The pointer that the code computes for an address. -/
def pointer (cr3 va : ℕ) : Pointer :=
  match s.lookup va cr3 with
  | some entry => frameMemory (align entry) (va % 0x1000)
  | none => .address va

/-- The address is the kernel's, or on a page of the user half that is present, without execute-disable
and without the reserved bit. -/
def Visible (cr3 va : ℕ) : Prop :=
  isPhysical va = true ∧ va < 2 ^ 64 ∨
    va < userEnd ∧ present (leafEntry s.machine.memory cr3 va) = true ∧ leafEntry s.machine.memory cr3 va < 2 ^ 62

end Kernel

/-- Bytes were put at places, and nothing else changed; a place has one of the bytes that were put there. -/
structure Put (place : ℕ → Place) (n : ℕ) (source : ℕ → ℕ) (s s' : Kernel) : Prop where
  config : s'.machine = { s.machine with memory := s'.machine.memory }
  inside : ∀ k < n, ∃ j < n, place j = place k ∧ s'.byteAt (place k) = source j % 256
  outside : ∀ p, (∀ k < n, place k ≠ p) → s'.byteAt p = s.byteAt p
  frames : ∀ f, (∀ k < n, ∀ o, place k ≠ .frame f o) → s'.machine.memory f = s.machine.memory f
  bytes : ∀ a, (∀ k < n, place k ≠ .kernel a) → s'.bytes a = s.bytes a

section Put

variable {s s' s'' : Kernel} {place : ℕ → Place} {n k : ℕ} {source : ℕ → ℕ}

/-- Nothing is put to begin with. -/
theorem Put.refl (s : Kernel) (place : ℕ → Place) (source : ℕ → ℕ) : Put place 0 source s s :=
  ⟨rfl, fun _ hk => absurd hk (Nat.not_lt_zero _), fun _ _ => rfl, fun _ _ => rfl, fun _ _ => rfl⟩

/-- Only the bytes and the places of the range matter. -/
theorem Put.congr {place' : ℕ → Place} {source' : ℕ → ℕ} (h : Put place n source s s')
    (hplace : ∀ k < n, place' k = place k) (hsource : ∀ k < n, source' k % 256 = source k % 256) :
    Put place' n source' s s' := by
  refine ⟨h.config, fun k hk => ?_, fun p hp => h.outside p fun k hk => ?_, fun f hf => h.frames f fun k hk o => ?_,
    fun a ha => h.bytes a fun k hk => ?_⟩
  · obtain ⟨j, hj, heq, hbyte⟩ := h.inside k hk
    rw [hplace k hk]
    exact ⟨j, hj, (hplace j hj).trans heq, by rw [hsource j hj, hbyte]⟩
  · rw [← hplace k hk]
    exact hp k hk
  · rw [← hplace k hk]
    exact hf k hk o
  · rw [← hplace k hk]
    exact ha k hk

/-- Where offsets at one place have one byte, every place has its byte. -/
theorem Put.exact (h : Put place n source s s')
    (hsame : ∀ i < n, ∀ j < n, place i = place j → source i % 256 = source j % 256) (hk : k < n) :
    s'.byteAt (place k) = source k % 256 := by
  obtain ⟨j, hj, heq, hbyte⟩ := h.inside k hk
  rw [hbyte, hsame j hj k hk heq]

/-- Two ranges put one after the other. -/
theorem Put.append (h : Put place k source s s')
    (h' : Put (fun j => place (k + j)) n (fun j => source (k + j)) s' s'') : Put place (k + n) source s s'' := by
  have hlater (i : ℕ) (hi : ∃ j < n, place (k + j) = place i) :
      ∃ j < k + n, place j = place i ∧ s''.byteAt (place i) = source j % 256 := by
    obtain ⟨j, hj, heq⟩ := hi
    obtain ⟨j', hj', heq', hbyte⟩ := h'.inside j hj
    rw [heq] at heq' hbyte
    exact ⟨k + j', by omega, heq', hbyte⟩
  refine ⟨?_, fun i hi => ?_, fun p hp => ?_, fun f hf => ?_, fun a ha => ?_⟩
  · rw [h'.config, h.config]
  · by_cases hik : i < k
    · by_cases hagain : ∃ j < n, place (k + j) = place i
      · exact hlater i hagain
      · obtain ⟨j, hj, heq, hbyte⟩ := h.inside i hik
        refine ⟨j, by omega, heq, ?_⟩
        rw [h'.outside (place i) fun j hj heq => hagain ⟨j, hj, heq⟩, hbyte]
    · exact hlater i ⟨i - k, by omega, by rw [Nat.add_sub_cancel' (by omega)]⟩
  · rw [h'.outside p fun j hj => hp (k + j) (by omega), h.outside p fun j hj => hp j (by omega)]
  · rw [h'.frames f fun j hj => hf (k + j) (by omega), h.frames f fun j hj => hf j (by omega)]
  · rw [h'.bytes a fun j hj => ha (k + j) (by omega), h.bytes a fun j hj => ha j (by omega)]

/-- Bytes written to a frame. -/
theorem Kernel.writeFrame_put (s : Kernel) (f offs : ℕ) (hn : 0 < n) (source : ℕ → ℕ) :
    Put (fun k => .frame f (offs + k)) n source s (s.writeFrame f offs n source) := by
  have hself : (s.writeFrame f offs n source).machine.memory f = writeBytes (s.machine.memory f) offs n source :=
    Function.update_self ..
  have hoff (g : ℕ) (hg : g ≠ f) : (s.writeFrame f offs n source).machine.memory g = s.machine.memory g :=
    Function.update_of_ne hg _ _
  refine ⟨rfl, fun k hk => ?_, fun p hp => ?_, fun g hg => ?_, fun _ _ => rfl⟩
  · refine ⟨k, hk, rfl, ?_⟩
    unfold Kernel.byteAt
    dsimp only
    rw [hself, readByte_writeBytes, if_pos (by omega), Nat.add_sub_cancel_left]
  · cases p with
    | kernel a => rfl
    | frame g o =>
      unfold Kernel.byteAt
      dsimp only
      by_cases hg : g = f
      · rw [hg, hself, readByte_writeBytes, if_neg]
        rintro ⟨hfirst, hlast⟩
        refine hp (o - offs) (by omega) ?_
        rw [hg, Nat.add_sub_cancel' hfirst]
      · rw [hoff g hg]
  · exact hoff g fun hgf => hg 0 hn offs (by rw [hgf, Nat.add_zero])

/-- A kernel address stays one as long as it does not wrap. -/
theorem isPhysical_add {a k : ℕ} (h : isPhysical a = true) : isPhysical (a + k) = true := by
  unfold isPhysical at h ⊢
  rw [decide_eq_true_eq] at h ⊢
  omega

/-- Addresses of the user half are not the kernel's. -/
theorem isPhysical_of_lt {a : ℕ} (h : a < userEnd) : isPhysical a = false := by
  unfold isPhysical
  unfold userEnd at h
  rw [decide_eq_false_iff_not]
  omega

/-- Bytes written to kernel addresses. -/
theorem Kernel.write_kernel (s : Kernel) {a : ℕ} (ha : isPhysical a = true) (hword : a + n ≤ 2 ^ 64) (source : ℕ → ℕ) :
    ∃ s', s.write (.address a) n source = some s' ∧ Put (fun k => .kernel (a + k)) n source s s' := by
  unfold Kernel.write
  dsimp only
  induction n with
  | zero => exact ⟨s, rfl, .refl s _ _⟩
  | succ n ih =>
    obtain ⟨s', hwrite, hput⟩ := ih (by omega)
    refine ⟨{ s' with bytes := Function.update s'.bytes (a + n) (source n) }, ?_, ?_⟩
    · rw [List.range_succ, List.foldlM_append, hwrite]
      simp only [Option.bind_eq_bind, Option.bind_some, List.foldlM_cons, List.foldlM_nil, Kernel.writeByte]
      rw [add64_of_lt (by omega), if_pos (isPhysical_add ha)]
      rfl
    · have hother (b : ℕ) (hb : ∀ k < 1, Place.kernel (a + (n + k)) ≠ .kernel b) :
          Function.update s'.bytes (a + n) (source n) b = s'.bytes b :=
        Function.update_of_ne (fun heq => hb 0 (by omega) (by rw [heq, Nat.add_zero])) _ _
      refine hput.append ⟨rfl, fun k hk => ⟨k, hk, rfl, ?_⟩, fun p hp => ?_, fun _ _ => rfl, hother⟩
      · obtain rfl : k = 0 := by omega
        unfold Kernel.byteAt
        dsimp only
        rw [Nat.add_zero, Function.update_self]
      · cases p with
        | frame f o => rfl
        | kernel b =>
          unfold Kernel.byteAt
          dsimp only
          rw [hother b hp]

end Put

section Translation

variable {roots : Finset ℕ} {s s' : Kernel} {place : ℕ → Place} {n cr3 : ℕ} {source : ℕ → ℕ}

/-- None of the places is in a table. -/
def OffTables (roots : Finset ℕ) (s : Kernel) (place : ℕ → Place) (n : ℕ) : Prop :=
  ∀ k < n, ∀ f o, place k = .frame f o → ¬ paging.IsTable s.machine.memory roots f

/-- Tables that no byte was put in are as before. -/
theorem Put.table (h : Put place n source s s') (hoff : OffTables roots s place n) {T : ℕ}
    (hT : paging.IsTable s.machine.memory roots T) : s'.machine.memory T = s.machine.memory T :=
  h.frames T fun k hk o heq => hoff k hk T o heq hT

/-- There are the same tables as before. -/
theorem Put.isTable (h : Put place n source s s') (hoff : OffTables roots s place n) (T : ℕ) :
    paging.IsTable s'.machine.memory roots T ↔ paging.IsTable s.machine.memory roots T := by
  have htables (l : ℕ) (hl : l ≤ 4) : paging.tables s'.machine.memory roots l = paging.tables s.machine.memory roots l :=
    Links.tables_congr (fun k hk T' hT' i _ => by rw [h.table hoff ⟨k, hk, hT'⟩]) l hl
  constructor
  · rintro ⟨l, hl, hT⟩
    exact ⟨l, hl, by rwa [← htables l (Nat.le_of_lt hl)]⟩
  · rintro ⟨l, hl, hT⟩
    exact ⟨l, hl, by rwa [htables l (Nat.le_of_lt hl)]⟩

/-- Every translation is as before. -/
theorem Put.leafEntry (h : Put place n source s s') (hoff : OffTables roots s place n) (hcr3 : align cr3 ∈ roots)
    (va : ℕ) : leafEntry s'.machine.memory cr3 va = leafEntry s.machine.memory cr3 va := by
  have hwalk : paging.walk s'.machine.memory 0 (align cr3) (indices va) =
      paging.walk s.machine.memory 0 (align cr3) (indices va) :=
    Links.walk_congr (show align cr3 ∈ paging.tables s.machine.memory roots 0 from hcr3) (indices_mem va)
      fun k _ hk T hT i _ => by rw [h.table hoff ⟨k, by simp [indices] at hk; exact Nat.lt_succ_of_lt hk, hT⟩]
  unfold Cthulhu.leafEntry
  rw [hwalk]
  cases hpt : paging.walk s.machine.memory 0 (align cr3) (indices va) with
  | none => rfl
  | some pt =>
    have hslot := leafSlot_of_walk hcr3 hpt
    dsimp only
    rw [h.table hoff ⟨3, by decide, hslot.1⟩]

/-- Every byte is where it was. -/
theorem Put.place_eq (h : Put place n source s s') (hoff : OffTables roots s place n) {va : ℕ}
    (hcr3 : isPhysical va = false → align cr3 ∈ roots) : s'.place cr3 va = s.place cr3 va := by
  unfold Kernel.place
  cases hva : isPhysical va with
  | true => rfl
  | false => rw [h.leafEntry hoff (hcr3 hva)]

/-- Every visible address stays so. -/
theorem Put.visible (h : Put place n source s s') (hoff : OffTables roots s place n) {va : ℕ}
    (hcr3 : isPhysical va = false → align cr3 ∈ roots) (hva : s.Visible cr3 va) : s'.Visible cr3 va := by
  rcases hva with hkernel | ⟨huser, hentry⟩
  · exact Or.inl hkernel
  · right
    rw [h.leafEntry hoff (hcr3 (isPhysical_of_lt huser))]
    exact ⟨huser, hentry⟩

end Translation

section Pointer

variable {s : Kernel} {cr3 va n : ℕ}

/-- The entry that is found for a present page. -/
theorem Kernel.lookup_present (hva : isPhysical va = false) (hpresent : present (leafEntry s.machine.memory cr3 va) = true) :
    s.lookup va cr3 = some (leafEntry s.machine.memory cr3 va) := by
  unfold Kernel.lookup
  rw [if_neg (by rw [hva]; decide)]
  cases hwalk : paging.walk s.machine.memory 0 (align cr3) (indices va) with
  | none =>
    rw [leafEntry_of_none hwalk] at hpresent
    exact absurd hpresent (by decide)
  | some pt =>
    rw [Machine.getPage_of_walk hwalk, Option.map_some, leafEntry_of_some hwalk]
    rfl

/-- The bytes of a visible address up to the end of its page. -/
structure Chunk (s : Kernel) (cr3 va n : ℕ) : Prop where
  visible : s.Visible cr3 va
  nonnull : ∀ o, s.place cr3 va ≠ .frame 0 o
  word : va + n ≤ 2 ^ 64
  page : va % 0x1000 + n ≤ 0x1000

/-- The places of a chunk follow each other, and so do the bytes behind its pointer. -/
theorem Chunk.cases (h : Chunk s cr3 va n) :
    (isPhysical va = true ∧ s.pointer cr3 va = .address va ∧ ∀ k < n, s.place cr3 (va + k) = .kernel (va + k)) ∨
      (isPhysical va = false ∧ s.pointer cr3 va = .mirror (frameOf (leafEntry s.machine.memory cr3 va)) (va % 0x1000) ∧
        ∀ k < n, s.place cr3 (va + k) =
          .frame (frameOf (leafEntry s.machine.memory cr3 va)) (va % 0x1000 + k)) := by
  rcases h.visible with ⟨hkernel, -⟩ | ⟨huser, hpresent, hlow⟩
  · refine Or.inl ⟨hkernel, ?_, fun k _ => ?_⟩
    · unfold Kernel.pointer Kernel.lookup
      rw [if_pos hkernel]
    · exact if_pos (isPhysical_add hkernel)
  · have hva := isPhysical_of_lt huser
    have hframe := frameOf_of_lt hlow
    have hplace : s.place cr3 va = .frame (frameOf (leafEntry s.machine.memory cr3 va)) (va % 0x1000) :=
      if_neg (by rw [hva]; decide)
    refine Or.inr ⟨hva, ?_, fun k hk => ?_⟩
    · have hne : frameOf (leafEntry s.machine.memory cr3 va) ≠ 0 := fun hzero =>
        h.nonnull _ (by rw [hplace, hzero])
      unfold Kernel.pointer
      rw [Kernel.lookup_present hva hpresent]
      dsimp only
      rw [← hframe, frameMemory_of_ne hne]
    · have hpage := h.page
      have hend : userEnd = 2 ^ 47 := rfl
      have hsame : SamePage (va + k) va := by
        unfold SamePage
        omega
      have hk' : isPhysical (va + k) = false := by
        refine isPhysical_of_lt ?_
        omega
      unfold Kernel.place
      rw [if_neg (by rw [hk']; decide), hsame.leafEntry_eq s.machine.memory cr3]
      congr 1
      omega

/-- What is read through the pointer of a chunk. -/
theorem Chunk.load (h : Chunk s cr3 va n) {k : ℕ} (hk : k < n) :
    s.load (s.pointer cr3 va) k = some (s.byteAt (s.place cr3 (va + k))) := by
  have hword := h.word
  rcases h.cases with ⟨hkernel, hpointer, hplace⟩ | ⟨-, hpointer, hplace⟩
  · rw [hpointer, hplace k hk]
    unfold Kernel.load Kernel.byteAt
    dsimp only
    rw [add64_of_lt (by omega), if_pos (isPhysical_add hkernel)]
  · rw [hpointer, hplace k hk]
    rfl

/-- What is written through the pointer of a chunk. -/
theorem Chunk.write (h : Chunk s cr3 va n) (hn : 0 < n) (source : ℕ → ℕ) :
    ∃ s', s.write (s.pointer cr3 va) n source = some s' ∧ Put (fun k => s.place cr3 (va + k)) n source s s' := by
  rcases h.cases with ⟨hkernel, hpointer, hplace⟩ | ⟨-, hpointer, hplace⟩
  · obtain ⟨s', hwrite, hput⟩ := s.write_kernel hkernel h.word source
    rw [hpointer]
    exact ⟨s', hwrite, hput.congr hplace fun _ _ => rfl⟩
  · rw [hpointer]
    exact ⟨_, rfl, (s.writeFrame_put _ _ hn source).congr hplace fun _ _ => rfl⟩

/-- What an address space shows at a visible address. -/
theorem Kernel.Visible.seenByte (h : s.Visible cr3 va) : s.seenByte cr3 va = some (s.byteAt (s.place cr3 va)) := by
  unfold Kernel.seenByte Kernel.place
  rcases h with ⟨hkernel, -⟩ | ⟨huser, hpresent, hlow⟩
  · rw [if_pos hkernel, if_pos hkernel]
    rfl
  · have hva := isPhysical_of_lt huser
    have hout : pmlIndex va ≠ 510 := by
      have hend : userEnd = 2 ^ 47 := rfl
      unfold pmlIndex
      omega
    have hentry := s.machine.pageEntry_eq cr3 hout
    rw [if_neg (by rw [hva]; decide), if_neg (by rw [hva]; decide)]
    unfold Kernel.userByte
    dsimp only
    rw [hentry, if_pos hpresent]
    rfl

end Pointer

end Cthulhu
