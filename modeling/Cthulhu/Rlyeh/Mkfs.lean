import Cthulhu.Lib.Bytes
import Cthulhu.Rlyeh.LoadHeader

/-!
# Packing a directory

`list_directory` and `pack_data` of `mkfs.py`. A directory is the list of its items in the order of
`os.listdir`. The header behind its first twelve bytes and the data are two lists that grow together,
and `struct.pack` fails on a number of more than 32 bits.

The packed image is then described at once: the records of the files that are packed, each with the
position of its contents, and the contents one after the other.
-/

namespace Cthulhu

open Lib

/-- The items of a directory, with the contents of the files. -/
inductive DirTree
  | nil
  | file (item : PathName) (d : List ℕ) (rest : DirTree)
  | dir (item : PathName) (items rest : DirTree)

namespace DirTree

/-- `os.listdir`. -/
def names : DirTree → List PathName
  | .nil => []
  | .file item _ rest => item :: rest.names
  | .dir item _ rest => item :: rest.names

/-- A file name: not empty, and without `/` and `NUL`. -/
def ValidName (item : PathName) : Prop := item ≠ [] ∧ 0x2F ∉ item ∧ 0 ∉ item

/-- Every item has a file name, which no other item of its directory has. -/
def WellFormed : DirTree → Prop
  | .nil => True
  | .file item _ rest => ValidName item ∧ item ∉ rest.names ∧ rest.WellFormed
  | .dir item items rest => ValidName item ∧ items.WellFormed ∧ item ∉ rest.names ∧ rest.WellFormed

/-- The files below a directory, with the components of their paths. -/
def files : DirTree → List PathName → List (List PathName × List ℕ)
  | .nil, _ => []
  | .file item d rest, parent => (parent ++ [item], d) :: rest.files parent
  | .dir item items rest, parent => items.files (parent ++ [item]) ++ rest.files parent

end DirTree

/-- The four bytes that `struct.pack` makes of a number. -/
def u32Bytes (v : ℕ) : List ℕ := (List.range 4).map (byteOf v)

/-- `struct.pack("I", v)`. -/
def packI (v : ℕ) : Option (List ℕ) := if v < 2 ^ 32 then some (u32Bytes v) else none

/-- `heado` behind its first twelve bytes, `bino`, and `number_of_entries`. -/
structure PackState where
  heado : List ℕ
  bino : List ℕ
  numberOfEntries : ℕ
  deriving DecidableEq, Repr

/-- What `list_directory` does with a file. -/
def packFile (initpath d : List ℕ) (s : PackState) : Option PackState :=
  if 255 < initpath.length then some s
  else do
    let pos ← packI s.bino.length
    let size ← packI d.length
    some ⟨s.heado ++ (pos ++ size ++ (initpath ++ List.replicate (256 - initpath.length) 0x20)), s.bino ++ d,
      s.numberOfEntries + 1⟩

/-- `list_directory`. -/
def listDirectory : DirTree → List ℕ → PackState → Option PackState
  | .nil, _, s => some s
  | .file item d rest, localDirectory, s =>
    (packFile ((if localDirectory ≠ [] then localDirectory ++ [0x2F] else []) ++ item ++ [0]) d s).bind
      (listDirectory rest localDirectory)
  | .dir item items rest, localDirectory, s =>
    (listDirectory items (if localDirectory ≠ [] then localDirectory ++ [0x2F] ++ item else item) s).bind
      (listDirectory rest localDirectory)

/-- `pack_data`. -/
def packData (directory : DirTree) : Option (List ℕ) := do
  let s ← listDirectory directory [] ⟨[], [], 0⟩
  let magic ← packI 0x55D0AFDE
  let nument ← packI s.numberOfEntries
  let dataoffset ← packI (12 + s.numberOfEntries * 264)
  some (magic ++ nument ++ dataoffset ++ s.heado ++ s.bino)

/-- A path as a string. -/
def joined (path : List PathName) : List ℕ := [0x2F].intercalate path

/-- The files whose paths are short enough to be packed. -/
def DirTree.packed (directory : DirTree) : List (List PathName × List ℕ) :=
  (directory.files []).filter fun f => (joined f.1).length ≤ 254

/-- The length of the image. -/
def DirTree.imageSize (directory : DirTree) : ℕ :=
  12 + directory.packed.length * 264 + (directory.packed.flatMap (·.2)).length

/-- The entries of packed files, the contents of the first at a position of the data. -/
def records : ℕ → List (List PathName × List ℕ) → List LfileInfo
  | _, [] => []
  | pos, f :: rest => ⟨pos, f.2.length, joined f.1⟩ :: records (pos + f.2.length) rest

/-- The bytes of an entry. -/
def LfileInfo.bytes (lf : LfileInfo) : List ℕ :=
  u32Bytes lf.offset ++ u32Bytes lf.fsize ++ (lf.fpath ++ [0] ++ List.replicate (255 - lf.fpath.length) 0x20)

/-- A path with one more component. -/
theorem joined_concat {dir : List PathName} (hdir : ∀ item ∈ dir, item ≠ []) (item : PathName) :
    joined (dir ++ [item]) = (if joined dir ≠ [] then joined dir ++ [0x2F] else []) ++ item := by
  have hempty : joined dir = [] ↔ dir = [] := by
    cases dir with
    | nil => simp [joined]
    | cons first rest =>
      have hfirst := hdir first List.mem_cons_self
      cases rest <;> simp [joined, hfirst]
  by_cases h : dir = []
  · simp [joined, h]
  · rw [if_pos fun heq => h (hempty.mp heq)]
    clear hempty
    induction dir with
    | nil => exact absurd rfl h
    | cons first rest ih =>
      cases rest with
      | nil => simp [joined]
      | cons next more =>
        have htail := ih (fun item hitem => hdir item (List.mem_cons_of_mem first hitem)) (List.cons_ne_nil next more)
        simp only [joined, List.cons_append, List.intercalate_cons_cons] at htail ⊢
        rw [htail]
        simp

/-- `list_directory` packs the files one after the other. -/
theorem listDirectory_eq {t : DirTree} (ht : t.WellFormed) {dir : List PathName} (hdir : ∀ item ∈ dir, item ≠ [])
    (s : PackState) : listDirectory t (joined dir) s =
      (t.files dir).foldlM (fun s f => packFile (joined f.1 ++ [0]) f.2 s) s := by
  induction t generalizing dir s with
  | nil => rfl
  | file item d rest ih =>
    rw [listDirectory, DirTree.files, List.foldlM_cons, joined_concat hdir]
    exact congrArg _ (funext fun s => ih ht.2.2 hdir s)
  | dir item items rest ihitems ihrest =>
    have hsub : ∀ name ∈ dir ++ [item], name ≠ [] := by
      intro name hname
      rcases List.mem_append.mp hname with hname | hname
      · exact hdir name hname
      · rw [List.mem_singleton.mp hname]
        exact ht.1.1
    have hname : (if joined dir ≠ [] then joined dir ++ [0x2F] ++ item else item) = joined (dir ++ [item]) := by
      rw [joined_concat hdir]
      split <;> simp
    rw [listDirectory, DirTree.files, List.foldlM_append, hname, ihitems ht.2.1 hsub]
    exact congrArg _ (funext fun s => ihrest ht.2.2.2 hdir s)

/-- Packing files one after the other, while the positions fit. -/
theorem packFiles_eq {fs : List (List PathName × List ℕ)} {s : PackState} (hsize :
    s.bino.length + ((fs.filter fun f => (joined f.1).length ≤ 254).flatMap (·.2)).length < 2 ^ 32) :
    fs.foldlM (fun s f => packFile (joined f.1 ++ [0]) f.2 s) s =
      let packed := fs.filter fun f => (joined f.1).length ≤ 254
      some ⟨s.heado ++ (records s.bino.length packed).flatMap LfileInfo.bytes, s.bino ++ packed.flatMap (·.2),
        s.numberOfEntries + packed.length⟩ := by
  induction fs generalizing s with
  | nil => simp [records]
  | cons f rest ih =>
    rw [List.foldlM_cons]
    by_cases hfits : (joined f.1).length ≤ 254
    · simp only [List.filter_cons, hfits, decide_true, if_true, List.flatMap_cons, List.length_append] at hsize ⊢
      have hpack : packFile (joined f.1 ++ [0]) f.2 s = some ⟨s.heado ++ LfileInfo.bytes ⟨s.bino.length, f.2.length, joined f.1⟩,
          s.bino ++ f.2, s.numberOfEntries + 1⟩ := by
        have hpos : s.bino.length < 2 ^ 32 := by omega
        have hlen : f.2.length < 2 ^ 32 := by omega
        have hshort : ¬ 255 < (joined f.1 ++ [0]).length := by
          rw [List.length_append, List.length_singleton]
          omega
        have hpad : 256 - (joined f.1 ++ [0]).length = 255 - (joined f.1).length := by
          rw [List.length_append, List.length_singleton]
          omega
        rw [packFile, if_neg hshort, hpad, packI, packI, if_pos hpos, if_pos hlen]
        rfl
      rw [hpack]
      refine (ih (by rw [List.length_append]; omega)).trans ?_
      simp [records, Nat.add_assoc, Nat.add_comm 1]
    · have hskip : packFile (joined f.1 ++ [0]) f.2 s = some s := by
        rw [packFile, if_pos (by simp; omega)]
      rw [hskip]
      simp only [List.filter_cons, hfits, decide_false] at hsize ⊢
      exact ih hsize

/-- The image of a directory whose size fits in 32 bits. -/
theorem packData_eq {t : DirTree} (ht : t.WellFormed) (hsize : t.imageSize < 2 ^ 32) :
    packData t = some (u32Bytes 0x55D0AFDE ++ u32Bytes t.packed.length ++ u32Bytes (12 + t.packed.length * 264) ++
      (records 0 t.packed).flatMap LfileInfo.bytes ++ t.packed.flatMap (·.2)) := by
  unfold DirTree.imageSize at hsize
  have hdata : (t.packed.flatMap (·.2)).length < 2 ^ 32 := by omega
  have hlist : listDirectory t [] ⟨[], [], 0⟩ = some ⟨(records 0 t.packed).flatMap LfileInfo.bytes, t.packed.flatMap (·.2),
      t.packed.length⟩ := by
    refine (listDirectory_eq ht (List.forall_mem_nil _) _).trans ((packFiles_eq ?_).trans ?_)
    · rw [List.length_nil, Nat.zero_add]
      exact hdata
    · simp [DirTree.packed]
  rw [packData, hlist]
  have hcount : t.packed.length < 2 ^ 32 := by omega
  have hoffset : 12 + t.packed.length * 264 < 2 ^ 32 := by omega
  have hmagic : packI 0x55D0AFDE = some (u32Bytes 0x55D0AFDE) := rfl
  have hnument : packI t.packed.length = some (u32Bytes t.packed.length) := if_pos hcount
  have hstart : packI (12 + t.packed.length * 264) = some (u32Bytes (12 + t.packed.length * 264)) := if_pos hoffset
  simp [hmagic, hnument, hstart]

/-- Every path below a directory starts with the directory and the name of one of its items. -/
theorem path_of_mem_files {t : DirTree} {parent : List PathName} {f : List PathName × List ℕ} (hf : f ∈ t.files parent) :
    ∃ item ∈ t.names, parent ++ [item] <+: f.1 := by
  induction t generalizing parent with
  | nil => exact absurd hf List.not_mem_nil
  | file item d rest ih =>
    rcases List.mem_cons.mp hf with rfl | hf
    · exact ⟨item, List.mem_cons_self, List.prefix_refl _⟩
    · obtain ⟨name, hname, hpath⟩ := ih hf
      exact ⟨name, List.mem_cons_of_mem item hname, hpath⟩
  | dir item items rest ihitems ihrest =>
    rcases List.mem_append.mp hf with hf | hf
    · obtain ⟨name, -, hpath⟩ := ihitems hf
      exact ⟨item, List.mem_cons_self, (List.prefix_append _ [name]).trans hpath⟩
    · obtain ⟨name, hname, hpath⟩ := ihrest hf
      exact ⟨name, List.mem_cons_of_mem item hname, hpath⟩

/-- The components below a directory are file names. -/
theorem validName_of_mem_files {t : DirTree} (ht : t.WellFormed) {parent : List PathName}
    (hparent : ∀ item ∈ parent, DirTree.ValidName item) {f : List PathName × List ℕ} (hf : f ∈ t.files parent) :
    ∀ item ∈ f.1, DirTree.ValidName item := by
  have hsub {item : PathName} (hitem : DirTree.ValidName item) : ∀ name ∈ parent ++ [item], DirTree.ValidName name := by
    intro name hname
    rcases List.mem_append.mp hname with hname | hname
    · exact hparent name hname
    · rw [List.mem_singleton.mp hname]
      exact hitem
  induction t generalizing parent with
  | nil => exact absurd hf List.not_mem_nil
  | file item d rest ih =>
    rcases List.mem_cons.mp hf with rfl | hf
    · exact hsub ht.1
    · exact ih ht.2.2 hparent hf hsub
  | dir item items rest ihitems ihrest =>
    rcases List.mem_append.mp hf with hf | hf
    · refine ihitems ht.2.1 (hsub ht.1) hf fun hitem name hname => ?_
      rcases List.mem_append.mp hname with hname | hname
      · exact hsub ht.1 name hname
      · rw [List.mem_singleton.mp hname]
        exact hitem
    · exact ihrest ht.2.2.2 hparent hf hsub

/-- Paths that go through different items of a directory are apart. -/
theorem apart_of_items {parent p q : List PathName} {a b : PathName} (hp : parent ++ [a] <+: p) (hq : parent ++ [b] <+: q)
    (hne : a ≠ b) : ¬ p <+: q ∧ ¬ q <+: p := by
  have hcross {p q : List PathName} {a b : PathName} (hp : parent ++ [a] <+: p) (hq : parent ++ [b] <+: q) (hne : a ≠ b) :
      ¬ p <+: q := by
    intro hpq
    have heq := List.prefix_of_prefix_length_le (hp.trans hpq) hq (by simp)
    have hlast := heq.eq_of_length (by simp)
    exact hne (List.singleton_inj.mp (List.append_cancel_left hlast))
  exact ⟨hcross hp hq hne, hcross hq hp hne.symm⟩

/-- No file of a directory is at or below another. -/
theorem files_apart {t : DirTree} (ht : t.WellFormed) (parent : List PathName) :
    (t.files parent).Pairwise fun f g => ¬ f.1 <+: g.1 ∧ ¬ g.1 <+: f.1 := by
  induction t generalizing parent with
  | nil => exact List.Pairwise.nil
  | file item d rest ih =>
    refine List.Pairwise.cons (fun g hg => ?_) (ih ht.2.2 parent)
    obtain ⟨name, hname, hpath⟩ := path_of_mem_files hg
    exact apart_of_items (List.prefix_refl _) hpath fun heq => ht.2.1 (heq ▸ hname)
  | dir item items rest ihitems ihrest =>
    refine List.pairwise_append.mpr ⟨ihitems ht.2.1 _, ihrest ht.2.2.2 parent, fun f hf g hg => ?_⟩
    obtain ⟨_, -, hfpath⟩ := path_of_mem_files hf
    obtain ⟨name, hname, hgpath⟩ := path_of_mem_files hg
    exact apart_of_items ((List.prefix_append _ _).trans hfpath) hgpath fun heq => ht.2.2.1 (heq ▸ hname)

end Cthulhu
