import Cthulhu.Rlyeh.Mkfs

/-!
# Reading a packed image

`init_initramfs` over the memory that holds the image. `load_header` reads the records in place, and
`strtok` writes a `NUL` over the separators of a path after it was read. Such a path lies inside its
own record, so the later records and the data are read as they were packed.
-/

namespace Cthulhu

open Lib

/-- The bytes of a string in memory, of at most as many bytes as given. -/
def stringAt (mem : ℕ → ℕ) : ℕ → ℕ → List ℕ
  | 0, _ => []
  | n + 1, a => if mem a = 0 then [] else mem a :: stringAt mem n (a + 1)

/-- A `uint32_t` in memory. -/
def readU32 (mem : ℕ → ℕ) (a : ℕ) : ℕ := leWord (fun k => mem (a + k)) 4

/-- The bytes of a string after `strtok` was called for all its components: the separator behind each is `NUL`. -/
def cutComponents : Bool → List ℕ → List ℕ
  | _, [] => []
  | inside, c :: rest =>
    if c = 0x2F then (if inside then 0 else c) :: cutComponents false rest else c :: cutComponents true rest

/-- Memory with some bytes written. -/
def writeAt (mem : ℕ → ℕ) (a : ℕ) (bytes : List ℕ) (x : ℕ) : ℕ :=
  if a ≤ x ∧ x < a + bytes.length then bytes.getD (x - a) 0 else mem x

/-- An `lfile_info_t` in memory. -/
def readLfile (mem : ℕ → ℕ) (a : ℕ) : LfileInfo := ⟨readU32 mem a, readU32 mem (a + 4), stringAt mem (2 ^ 64) (a + 8)⟩

/-- The memory and the tree while an image is loaded. -/
structure Initrd where
  mem : ℕ → ℕ
  root : List PathElement

/-- A round of `load_header` in memory. -/
def headerRound (initrdModule i : ℕ) (s : Initrd) : Except LoadStop Initrd :=
  let a := initrdModule + 12 + i * 264
  let lf := readLfile s.mem a
  (loadRound (readU32 s.mem (initrdModule + 8)) s.root lf).map fun root =>
    ⟨writeAt s.mem (a + 8) (cutComponents false lf.fpath), root⟩

/-- The rounds of `load_header` from an index on. -/
def headerRounds (initrdModule : ℕ) : ℕ → ℕ → Initrd → Except LoadStop Initrd
  | 0, _, s => .ok s
  | n + 1, i, s => (headerRound initrdModule i s).bind (headerRounds initrdModule n (i + 1))

/-- The errors of `init_initramfs`, and what stops `load_header`. -/
inductive InitStop
  | noInitrd
  | wrongHeader
  | load (stop : LoadStop)
  deriving DecidableEq, Repr

/-- `init_initramfs`, with the module that `get_module` finds. -/
def initInitramfs (mem : ℕ → ℕ) : Option ℕ → Except InitStop Initrd
  | none => .error .noInitrd
  | some initrdModule =>
    if mem initrdModule ≠ 0xDE ∨ mem (initrdModule + 1) ≠ 0xAF ∨ mem (initrdModule + 2) ≠ 0xD0 ∨
        mem (initrdModule + 3) ≠ 0x55 then .error .wrongHeader
    else (headerRounds initrdModule (readU32 mem (initrdModule + 4)) 0 ⟨mem, []⟩).mapError .load

/-- `get_data`. -/
def getData (file : FileEntry) (initrdModule : ℕ) : ℕ := file.offset + initrdModule

/-- Some bytes are in memory from an address on. -/
def HoldsAt (mem : ℕ → ℕ) (a : ℕ) (bytes : List ℕ) : Prop := ∀ i b, bytes[i]? = some b → mem (a + i) = b

section Holds

variable {mem mem' : ℕ → ℕ} {a : ℕ} {xs ys : List ℕ}

/-- Two stretches of bytes, one behind the other. -/
theorem holdsAt_append : HoldsAt mem a (xs ++ ys) ↔ HoldsAt mem a xs ∧ HoldsAt mem (a + xs.length) ys := by
  constructor
  · intro h
    refine ⟨fun i b hb => h i b ?_, fun i b hb => ?_⟩
    · have hi := (List.getElem?_eq_some_iff.mp hb).1
      rw [List.getElem?_append_left hi]
      exact hb
    · rw [Nat.add_assoc]
      refine h _ b ?_
      rw [List.getElem?_append_right (Nat.le_add_right _ _), Nat.add_sub_cancel_left]
      exact hb
  · rintro ⟨hxs, hys⟩ i b hb
    by_cases hi : i < xs.length
    · rw [List.getElem?_append_left hi] at hb
      exact hxs i b hb
    · have hle : xs.length ≤ i := Nat.le_of_not_lt hi
      rw [List.getElem?_append_right hle] at hb
      have hat := hys _ b hb
      rwa [Nat.add_assoc, Nat.add_sub_cancel' hle] at hat

/-- A byte and the bytes behind it. -/
theorem holdsAt_cons {c : ℕ} : HoldsAt mem a (c :: xs) ↔ mem a = c ∧ HoldsAt mem (a + 1) xs := by
  rw [← List.singleton_append, holdsAt_append]
  refine and_congr_left fun _ => ⟨fun h => h 0 c rfl, fun h i b hb => ?_⟩
  obtain ⟨hi, hb⟩ := List.getElem?_eq_some_iff.mp hb
  obtain rfl : i = 0 := by simpa using hi
  exact h.trans hb

/-- Bytes stay where nothing is written. -/
theorem HoldsAt.congr (h : HoldsAt mem a xs) (hsame : ∀ i, i < xs.length → mem' (a + i) = mem (a + i)) :
    HoldsAt mem' a xs := fun i b hb => (hsame i (List.getElem?_eq_some_iff.mp hb).1).trans (h i b hb)

/-- The bytes of a number read back. -/
theorem HoldsAt.readU32 {v : ℕ} (h : HoldsAt mem a (u32Bytes v)) (hv : v < 2 ^ 32) : readU32 mem a = v := by
  have hbytes : ∀ k < 4, mem (a + k) = byteOf v k := by
    intro k hk
    refine h k _ ?_
    simp [u32Bytes, hk]
  rw [Cthulhu.readU32, leWord_congr hbytes, leWord_byteOf]
  exact Nat.mod_eq_of_lt hv

/-- A string up to its `NUL` reads back. -/
theorem HoldsAt.stringAt (h : HoldsAt mem a (xs ++ [0])) (hxs : 0 ∉ xs) {n : ℕ} (hn : xs.length < n) :
    stringAt mem n a = xs := by
  induction xs generalizing a n with
  | nil =>
    obtain ⟨n, rfl⟩ := Nat.exists_eq_succ_of_ne_zero (Nat.ne_of_gt hn)
    rw [Cthulhu.stringAt, if_pos (holdsAt_cons.mp h).1]
  | cons c xs ih =>
    obtain ⟨n, rfl⟩ := Nat.exists_eq_succ_of_ne_zero (Nat.ne_of_gt (Nat.zero_lt_of_lt hn))
    obtain ⟨hc, hrest⟩ := holdsAt_cons.mp h
    have hne : ¬ c = 0 := fun heq => hxs (by rw [heq]; exact List.mem_cons_self)
    rw [Cthulhu.stringAt, hc, if_neg hne, ih hrest (fun hin => hxs (List.mem_cons_of_mem c hin)) (Nat.lt_of_succ_lt_succ hn)]

end Holds

/-- Cutting a string keeps its length. -/
theorem cutComponents_length (inside : Bool) (s : List ℕ) : (cutComponents inside s).length = s.length := by
  induction s generalizing inside with
  | nil => rfl
  | cons c rest ih =>
    rw [cutComponents]
    split <;> rw [List.length_cons, List.length_cons, ih]

/-- An entry that the packer writes: its numbers fit, and its path ends inside the record. -/
structure LfileInfo.Fits (lf : LfileInfo) : Prop where
  offset : lf.offset < 2 ^ 32
  fsize : lf.fsize < 2 ^ 32
  path : lf.fpath.length ≤ 254
  noNul : 0 ∉ lf.fpath

/-- A record has 264 bytes. -/
theorem LfileInfo.Fits.length {lf : LfileInfo} (h : lf.Fits) : lf.bytes.length = 264 := by
  have hpath := h.path
  simp only [LfileInfo.bytes, u32Bytes, List.length_append, List.length_map, List.length_range, List.length_replicate,
    List.length_singleton]
  omega

/-- A record in memory is read as the entry it was packed from. -/
theorem LfileInfo.Fits.read {lf : LfileInfo} (h : lf.Fits) {mem : ℕ → ℕ} {a : ℕ} (hat : HoldsAt mem a lf.bytes) :
    readLfile mem a = lf := by
  obtain ⟨hnumbers, hpath⟩ := holdsAt_append.mp hat
  obtain ⟨hoffset, hfsize⟩ := holdsAt_append.mp hnumbers
  have hstring := (holdsAt_append.mp hpath).1
  have hlong : lf.fpath.length < 2 ^ 64 := Nat.lt_of_le_of_lt h.path (by decide)
  have hfour (v : ℕ) : (u32Bytes v).length = 4 := rfl
  rw [hfour] at hfsize
  rw [List.length_append, hfour, hfour] at hstring
  rw [readLfile, hoffset.readU32 h.offset, hfsize.readU32 h.fsize, hstring.stringAt h.noNul hlong]

/-- The rounds over packed records load their entries, and write to the records only. -/
theorem headerRounds_ok {initrdModule dataoffset : ℕ} {entries : List LfileInfo} (hfits : ∀ lf ∈ entries, lf.Fits) {i : ℕ}
    {mem : ℕ → ℕ} {root root' : List PathElement}
    (hat : HoldsAt mem (initrdModule + 12 + i * 264) (entries.flatMap LfileInfo.bytes))
    (hdata : readU32 mem (initrdModule + 8) = dataoffset)
    (hload : entries.foldlM (loadRound dataoffset) root = .ok root') :
    ∃ mem', headerRounds initrdModule entries.length i ⟨mem, root⟩ = .ok ⟨mem', root'⟩ ∧
      ∀ x, x < initrdModule + 12 + i * 264 ∨ initrdModule + 12 + (i + entries.length) * 264 ≤ x → mem' x = mem x := by
  induction entries generalizing i mem root with
  | nil =>
    obtain rfl : root = root' := by simpa [pure, Except.pure] using hload
    exact ⟨mem, rfl, fun _ _ => rfl⟩
  | cons lf rest ih =>
    rw [List.forall_mem_cons] at hfits
    obtain ⟨hlf, hrest⟩ := hfits
    rw [List.flatMap_cons, holdsAt_append, hlf.length] at hat
    rw [List.foldlM_cons] at hload
    cases hround : loadRound dataoffset root lf with
    | error stop =>
      rw [hround] at hload
      cases hload
    | ok next =>
      rw [hround] at hload
      have hpath := hlf.path
      have hone : headerRound initrdModule i ⟨mem, root⟩ =
          .ok ⟨writeAt mem (initrdModule + 12 + i * 264 + 8) (cutComponents false lf.fpath), next⟩ := by
        unfold headerRound
        dsimp only
        rw [hlf.read hat.1, hdata, hround]
        rfl
      -- The write of this round stays inside its record.
      have hoff (x : ℕ) (hx : x < initrdModule + 12 + i * 264 ∨ initrdModule + 12 + (i + 1) * 264 ≤ x) :
          writeAt mem (initrdModule + 12 + i * 264 + 8) (cutComponents false lf.fpath) x = mem x := by
        refine if_neg fun hin => ?_
        rw [cutComponents_length] at hin
        omega
      have hnext : initrdModule + 12 + (i + 1) * 264 = initrdModule + 12 + i * 264 + 264 := by omega
      have hwider (x : ℕ) (hx : x < initrdModule + 12 + i * 264 ∨ initrdModule + 12 + (i + (rest.length + 1)) * 264 ≤ x) :
          (x < initrdModule + 12 + (i + 1) * 264 ∨ initrdModule + 12 + (i + 1 + rest.length) * 264 ≤ x) ∧
            (x < initrdModule + 12 + i * 264 ∨ initrdModule + 12 + (i + 1) * 264 ≤ x) := by
        omega
      have hat' : HoldsAt (writeAt mem (initrdModule + 12 + i * 264 + 8) (cutComponents false lf.fpath))
          (initrdModule + 12 + (i + 1) * 264) (rest.flatMap LfileInfo.bytes) := by
        rw [hnext]
        exact hat.2.congr fun j _ => hoff _ (by omega)
      have hdata' : readU32 (writeAt mem (initrdModule + 12 + i * 264 + 8) (cutComponents false lf.fpath))
          (initrdModule + 8) = dataoffset := by
        rw [← hdata]
        exact leWord_congr fun k hk => hoff _ (by omega)
      obtain ⟨mem', hrounds, hframe⟩ := ih hrest hat' hdata' hload
      refine ⟨mem', ?_, fun x hx => (hframe x (hwider x hx).1).trans (hoff x (hwider x hx).2)⟩
      rw [List.length_cons, headerRounds, hone]
      exact hrounds

/-- The entries of packed files, each with its place in the data. -/
theorem mem_records {pos : ℕ} {fs : List (List PathName × List ℕ)} {lf : LfileInfo} : lf ∈ records pos fs ↔
    ∃ before f after, fs = before ++ f :: after ∧
      lf = ⟨pos + (before.flatMap (·.2)).length, f.2.length, joined f.1⟩ := by
  induction fs generalizing pos with
  | nil => simp [records]
  | cons g rest ih =>
    rw [records, List.mem_cons, ih]
    constructor
    · rintro (rfl | ⟨before, f, after, rfl, rfl⟩)
      · exact ⟨[], g, rest, rfl, rfl⟩
      · exact ⟨g :: before, f, after, rfl, by simp [Nat.add_assoc]⟩
    · rintro ⟨before, f, after, hsplit, rfl⟩
      cases before with
      | nil =>
        obtain ⟨rfl, rfl⟩ := List.cons.inj hsplit
        exact Or.inl rfl
      | cons head before =>
        obtain ⟨rfl, rfl⟩ := List.cons.inj hsplit
        exact Or.inr ⟨before, f, after, rfl, by simp [Nat.add_assoc]⟩

/-- The string of a path has its components. -/
theorem components_joined {path : List PathName} (hne : path ≠ []) (hpath : ∀ item ∈ path, DirTree.ValidName item) :
    components (joined path) = path := by
  rw [components, tokens, joined, List.splitOn_intercalate _ (fun item hitem => (hpath item hitem).2.1) hne]
  exact List.filter_eq_self.mpr fun item hitem => decide_eq_true (hpath item hitem).1

/-- The string of a path has no `NUL`. -/
theorem nul_not_mem_joined {path : List PathName} (hpath : ∀ item ∈ path, DirTree.ValidName item) : 0 ∉ joined path := by
  induction path with
  | nil => exact List.not_mem_nil
  | cons item rest ih =>
    rw [List.forall_mem_cons] at hpath
    have htail := ih hpath.2
    cases rest with
    | nil => simpa [joined] using hpath.1.2.2
    | cons next more =>
      rw [joined, List.intercalate_cons_cons]
      simp only [List.mem_append, List.mem_singleton]
      rintro ((hin | hin) | hin)
      · exact hpath.1.2.2 hin
      · exact absurd hin (by decide)
      · exact htail hin

section Packed

variable {t : DirTree} {pos : ℕ}

/-- A packed file has a path of file names, short enough. -/
theorem packed_path (ht : t.WellFormed) {f : List PathName × List ℕ} (hf : f ∈ t.packed) :
    f.1 ≠ [] ∧ (∀ item ∈ f.1, DirTree.ValidName item) ∧ (joined f.1).length ≤ 254 := by
  obtain ⟨hin, hshort⟩ := List.mem_filter.mp hf
  obtain ⟨item, -, hprefix⟩ := path_of_mem_files hin
  refine ⟨fun heq => ?_, validName_of_mem_files ht (List.forall_mem_nil _) hin, of_decide_eq_true hshort⟩
  rw [heq] at hprefix
  exact absurd (List.prefix_nil.mp hprefix) (by simp)

/-- The entries of a packed directory fit in their records. -/
theorem records_fit (ht : t.WellFormed) (hsize : (t.packed.flatMap (·.2)).length < 2 ^ 32) : ∀ lf ∈ records 0 t.packed, lf.Fits := by
  intro lf hlf
  obtain ⟨before, f, after, hsplit, rfl⟩ := mem_records.mp hlf
  have hf : f ∈ t.packed := by simp [hsplit]
  obtain ⟨-, hvalid, hshort⟩ := packed_path ht hf
  rw [hsplit] at hsize
  simp only [List.flatMap_append, List.flatMap_cons, List.length_append] at hsize
  exact ⟨by dsimp only; omega, by dsimp only; omega, hshort, nul_not_mem_joined hvalid⟩

/-- The entries of a packed directory do not conflict. -/
theorem records_clean (ht : t.WellFormed) : Clean (records 0 t.packed) := by
  have hpaths (pos : ℕ) (fs : List (List PathName × List ℕ)) (hfs : ∀ f ∈ fs, components (joined f.1) = f.1) :
      (records pos fs).map LfileInfo.path = fs.map (·.1) := by
    induction fs generalizing pos with
    | nil => rfl
    | cons f rest ih =>
      rw [List.forall_mem_cons] at hfs
      rw [records, List.map_cons, List.map_cons, ih _ hfs.2]
      exact congrArg (· :: _) hfs.1
  have hmap := hpaths 0 t.packed fun f hf =>
    components_joined (packed_path ht hf).1 (packed_path ht hf).2.1
  constructor
  · intro lf hlf
    have hin : lf.path ∈ t.packed.map (·.1) := hmap ▸ List.mem_map_of_mem hlf
    obtain ⟨f, hf, heq⟩ := List.mem_map.mp hin
    rw [← heq]
    exact (packed_path ht hf).1
  · have happart := (files_apart ht []).filter fun f => (joined f.1).length ≤ 254
    have hpairs : (t.packed.map (·.1)).Pairwise fun p q => ¬ p <+: q ∧ ¬ q <+: p := List.pairwise_map.mpr happart
    rw [← hmap] at hpairs
    rw [List.pairwise_map] at hpairs
    exact hpairs

/-- One record for each packed file. -/
theorem records_length (pos : ℕ) (fs : List (List PathName × List ℕ)) : (records pos fs).length = fs.length := by
  induction fs generalizing pos with
  | nil => rfl
  | cons f rest ih => rw [records, List.length_cons, List.length_cons, ih]

/-- The records of a header fill it. -/
theorem records_bytes_length {entries : List LfileInfo} (hfits : ∀ lf ∈ entries, lf.Fits) :
    (entries.flatMap LfileInfo.bytes).length = entries.length * 264 := by
  induction entries with
  | nil => rfl
  | cons lf rest ih =>
    rw [List.forall_mem_cons] at hfits
    rw [List.flatMap_cons, List.length_append, hfits.1.length, ih hfits.2, List.length_cons]
    omega

/-- The contents of a packed file lie at its place in the data. -/
theorem packed_data {before after : List (List PathName × List ℕ)} {f : List PathName × List ℕ} {mem : ℕ → ℕ} {a : ℕ}
    (hat : HoldsAt mem a ((before ++ f :: after).flatMap (·.2))) : HoldsAt mem (a + (before.flatMap (·.2)).length) f.2 := by
  rw [List.flatMap_append, List.flatMap_cons, holdsAt_append, holdsAt_append] at hat
  exact hat.2.1

end Packed

/-- The contents of a packed file are at the address that `get_data` computes for its entry. -/
theorem getData_holds {t : DirTree} (hsize : t.imageSize < 2 ^ 32) {mem mem' : ℕ → ℕ} {initrdModule : ℕ}
    (hcontents : HoldsAt mem (initrdModule + (4 + 4 + 4 + t.packed.length * 264)) (t.packed.flatMap (·.2)))
    (hframe : ∀ x, initrdModule + 12 + t.packed.length * 264 ≤ x → mem' x = mem x)
    {before after : List (List PathName × List ℕ)} {f : List PathName × List ℕ} (hsplit : t.packed = before ++ f :: after) :
    HoldsAt mem' (getData (LfileInfo.entry (12 + t.packed.length * 264)
      ⟨0 + (before.flatMap (·.2)).length, f.2.length, joined f.1⟩) initrdModule) f.2 := by
  have hsmall : 12 + t.packed.length * 264 + (0 + (before.flatMap (·.2)).length) < 2 ^ 32 := by
    unfold DirTree.imageSize at hsize
    have hle : (before.flatMap (·.2)).length ≤ (t.packed.flatMap (·.2)).length := by simp [hsplit]
    omega
  have haddr : getData (LfileInfo.entry (12 + t.packed.length * 264)
      ⟨0 + (before.flatMap (·.2)).length, f.2.length, joined f.1⟩) initrdModule =
        initrdModule + (4 + 4 + 4 + t.packed.length * 264) + (before.flatMap (·.2)).length := by
    simp only [getData, LfileInfo.entry, Nat.mod_eq_of_lt hsmall]
    omega
  have hparts : HoldsAt mem (initrdModule + (4 + 4 + 4 + t.packed.length * 264)) ((before ++ f :: after).flatMap (·.2)) := by
    rw [← hsplit]
    exact hcontents
  rw [haddr]
  exact (packed_data hparts).congr fun i _ => hframe _ (by omega)

/-- What is packed is read back: a packed directory loads from any memory that holds its image, a lookup of any file
whose path was short enough returns its size and contents, and there is no other file. -/
theorem initramfs_round_trip (t : DirTree) (ht : t.WellFormed) (hsize : t.imageSize < 2 ^ 32) (mem : ℕ → ℕ) (initrdModule : ℕ) :
    ∃ image, packData t = some image ∧ image.length = t.imageSize ∧ (HoldsAt mem initrdModule image →
      ∃ s, initInitramfs mem (some initrdModule) = .ok s ∧
        (∀ f ∈ t.files [], (joined f.1).length ≤ 254 →
          ∃ name file, getPath (components (joined f.1)) s.root = .found (.file name file) ∧ file.size = f.2.length ∧
            HoldsAt s.mem (getData file initrdModule) f.2) ∧
        ∀ path file, HasFile s.root path file → ∃ d, (path, d) ∈ t.files [] ∧ (joined path).length ≤ 254 ∧
          file.size = d.length ∧ HoldsAt s.mem (getData file initrdModule) d) := by
  have hdata : (t.packed.flatMap (·.2)).length < 2 ^ 32 := by
    unfold DirTree.imageSize at hsize
    omega
  have hfits := records_fit ht hdata
  have hbytes := records_bytes_length hfits
  rw [records_length] at hbytes
  refine ⟨_, packData_eq ht hsize, ?_, fun hat => ?_⟩
  · simp only [List.length_append, hbytes, DirTree.imageSize, u32Bytes, List.length_map, List.length_range]
  · have hcount : t.packed.length < 2 ^ 32 := by
      unfold DirTree.imageSize at hsize
      omega
    have hoffset : 12 + t.packed.length * 264 < 2 ^ 32 := by
      unfold DirTree.imageSize at hsize
      omega
    have hfour (v : ℕ) : (u32Bytes v).length = 4 := rfl
    simp only [holdsAt_append, List.length_append, hfour, hbytes] at hat
    obtain ⟨⟨⟨⟨hmagic, hnument⟩, hdataoffset⟩, hrecords⟩, hcontents⟩ := hat
    obtain ⟨root, hload, htree⟩ := (records_clean ht).loaded (12 + t.packed.length * 264)
    obtain ⟨mem', hrounds, hrest⟩ := headerRounds_ok hfits (i := 0) hrecords (hdataoffset.readU32 hoffset) hload
    have hframe (x : ℕ) (hx : initrdModule + 12 + t.packed.length * 264 ≤ x) : mem' x = mem x := by
      refine hrest x (Or.inr ?_)
      rw [records_length, Nat.zero_add]
      exact hx
    have hplace {before after : List (List PathName × List ℕ)} {f : List PathName × List ℕ}
        (hsplit : t.packed = before ++ f :: after) := getData_holds hsize hcontents hframe hsplit
    refine ⟨⟨mem', root⟩, ?_, ?_, ?_⟩
    · have hbyte (k : ℕ) (hk : k < 4) : mem (initrdModule + k) = byteOf 0x55D0AFDE k := by
        refine hmagic k _ ?_
        simp [u32Bytes, hk]
      have hcounted : readU32 mem (initrdModule + 4) = (records 0 t.packed).length := by
        rw [records_length]
        exact hnument.readU32 hcount
      rw [initInitramfs, hcounted, hrounds, if_neg]
      · rfl
      · rw [show mem initrdModule = 0xDE from hbyte 0 (by decide), hbyte 1 (by decide), hbyte 2 (by decide),
          hbyte 3 (by decide)]
        decide
    · intro f hf hshort
      have hpacked : f ∈ t.packed := List.mem_filter.mpr ⟨hf, decide_eq_true hshort⟩
      obtain ⟨before, after, hsplit⟩ := List.append_of_mem hpacked
      have hlf : (⟨0 + (before.flatMap (·.2)).length, f.2.length, joined f.1⟩ : LfileInfo) ∈ records 0 t.packed :=
        mem_records.mpr ⟨before, f, after, hsplit, rfl⟩
      obtain ⟨name, hget⟩ := getPath_of_file ((htree.file_iff _ _).mpr (List.mem_map.mpr ⟨_, hlf, rfl⟩))
      exact ⟨name, _, hget, rfl, hplace hsplit⟩
    · intro path file hfile
      rcases HasFile.of_load hfile hload with hnone | ⟨lf, hlf, rfl, rfl⟩
      · cases hnone with
        | here hin => exact absurd hin List.not_mem_nil
        | inside hin _ => exact absurd hin List.not_mem_nil
      · obtain ⟨before, f, after, hsplit, rfl⟩ := mem_records.mp hlf
        have hf : f ∈ t.packed := by simp [hsplit]
        have hpath := components_joined (packed_path ht hf).1 (packed_path ht hf).2.1
        rw [LfileInfo.path, hpath]
        exact ⟨f.2, (List.mem_filter.mp hf).1, (packed_path ht hf).2.2, rfl, hplace hsplit⟩

/-- The directory `e` with the one-byte file `a`. -/
def nestedDirectory : DirTree := .dir [0x65] (.file [0x61] [7] .nil) .nil

/-- The image of a file in a subdirectory, read back. -/
theorem initramfs_round_trip_nested :
    ∃ s, initInitramfs (fun i => ((packData nestedDirectory).getD []).getD i 0) (some 0) = .ok s ∧
      ∃ name file, getPath [[0x65], [0x61]] s.root = .found (.file name file) ∧ file.size = 1 ∧
        HoldsAt s.mem (getData file 0) [7] := by
  have hformed : nestedDirectory.WellFormed := by simp [nestedDirectory, DirTree.WellFormed, DirTree.ValidName, DirTree.names]
  obtain ⟨image, hpack, -, hload⟩ := initramfs_round_trip nestedDirectory hformed (by decide)
    (fun i => ((packData nestedDirectory).getD []).getD i 0) 0
  obtain ⟨s, hinit, hfiles, -⟩ := hload (fun i b hb => by simp [hpack, hb])
  exact ⟨s, hinit, hfiles ([[0x65], [0x61]], [7]) (by decide) (by decide)⟩

end Cthulhu
