import Mathlib.Algebra.Group.Nat.Defs
import Cthulhu.Rlyeh.PathTree

/-!
# The files of a header

`load_header` over a sequence of entries. While no path equals an earlier one or is a proper prefix of
one, the tree holds exactly the files of the entries and the directories above them. The first entry
that breaks this decides the load: below an earlier file it is reported, at an earlier file it faults,
and above an earlier file it replaces a directory without a word.
-/

namespace Cthulhu

/-- `lfile_info_t`, with the path as a C string. -/
structure LfileInfo where
  offset : ℕ
  fsize : ℕ
  fpath : List ℕ
  deriving DecidableEq, Repr

/-- The components of an entry's path. -/
def LfileInfo.path (lf : LfileInfo) : List PathName := components lf.fpath

/-- The `file_entry_t` that `load_header` makes of an entry, with the 32-bit sum of the offsets. -/
def LfileInfo.entry (dataoffset : ℕ) (lf : LfileInfo) : FileEntry := ⟨lf.fsize, (dataoffset + lf.offset) % 2 ^ 32⟩

/-- One round of `load_header`. -/
def loadRound (dataoffset : ℕ) (tree : List PathElement) (lf : LfileInfo) : Except LoadStop (List PathElement) :=
  addPath (lf.entry dataoffset) lf.path tree

/-- `load_header` on an empty root. -/
def loadHeader (dataoffset : ℕ) (entries : List LfileInfo) : Except LoadStop (List PathElement) :=
  entries.foldlM (loadRound dataoffset) []

/-- Neither path equals the other or is a prefix of it. -/
def LfileInfo.Apart (lf lf' : LfileInfo) : Prop := ¬ lf.path <+: lf'.path ∧ ¬ lf'.path <+: lf.path

/-- Prefixes of paths can be decided. -/
instance LfileInfo.Apart.decidable (lf lf' : LfileInfo) : Decidable (lf.Apart lf') :=
  inferInstanceAs (Decidable (¬ lf.path <+: lf'.path ∧ ¬ lf'.path <+: lf.path))

/-- Every path has a component, and no two of them conflict. -/
def Clean (entries : List LfileInfo) : Prop := (∀ lf ∈ entries, lf.path ≠ []) ∧ entries.Pairwise LfileInfo.Apart

/-- A conflict is reported; without a report every path leads to the file of its own entry; and no round replaces
anything. -/
structure LosesNoFile (dataoffset : ℕ) (entries : List LfileInfo) : Prop where
  outcome : loadHeader dataoffset entries = .error .invalidFile ∨
    ∃ tree, loadHeader dataoffset entries = .ok tree ∧
      ∀ lf ∈ entries, ∃ name, getPath lf.path tree = .found (.file name (lf.entry dataoffset))
  conflict : ¬ entries.Pairwise LfileInfo.Apart → loadHeader dataoffset entries = .error .invalidFile
  keeps : ∀ earlier lf later tree tree', entries = earlier ++ lf :: later → loadHeader dataoffset earlier = .ok tree →
    loadRound dataoffset tree lf = .ok tree' → ∀ q kind, kindAt q tree = some kind → kindAt q tree' = some kind

/-- A tree that holds exactly the files of some paths and the directories above them. -/
structure TreeOf (files : List (List PathName × FileEntry)) (tree : List PathElement) : Prop where
  file_iff : ∀ q file, kindAt q tree = some (some file) ↔ (q, file) ∈ files
  dir_iff : ∀ q, kindAt q tree = some none ↔ q = [] ∨ ∃ f ∈ files, q <+: f.1 ∧ q ≠ f.1

namespace TreeOf

variable {files : List (List PathName × FileEntry)} {tree tree' : List PathElement} {entry : FileEntry} {path : List PathName}

/-- The empty root holds no file. -/
theorem empty : TreeOf [] [] where
  file_iff q file := by cases q <;> simp
  dir_iff q := by cases q <;> simp

/-- Adding a path goes wrong only at or below a file of the tree. -/
theorem add (htree : TreeOf files tree) (hpath : path ≠ []) (hapart : ∀ f ∈ files, ¬ f.1 <+: path) :
    ∃ tree', addPath entry path tree = .ok tree' := by
  cases hadd : addPath entry path tree with
  | ok tree' => exact ⟨tree', rfl⟩
  | error stop =>
    exfalso
    cases stop with
    | invalidFile =>
      obtain ⟨q, hq, -, file, hfile⟩ := addPath_invalidFile.mp hadd
      exact hapart _ ((htree.file_iff q file).mp hfile) hq
    | fault =>
      obtain ⟨file, hfile⟩ := (addPath_fault.mp hadd).resolve_left hpath
      exact hapart _ ((htree.file_iff path file).mp hfile) (List.prefix_refl path)

/-- A path that conflicts with no file changes nothing that was there. -/
theorem kept (htree : TreeOf files tree) (hpath : path ≠ []) (hapart : ∀ f ∈ files, ¬ f.1 <+: path ∧ ¬ path <+: f.1)
    (hadd : addPath entry path tree = .ok tree') {q : List PathName} {kind : Option FileEntry}
    (hkind : kindAt q tree = some kind) : kindAt q tree' = some kind := by
  have hbelow (hq : path <+: q) : False := by
    cases kind with
    | some file => exact (hapart _ ((htree.file_iff q file).mp hkind)).2 hq
    | none =>
      rcases (htree.dir_iff q).mp hkind with rfl | ⟨f, hf, hqf, -⟩
      · exact hpath (List.prefix_nil.mp hq)
      · exact (hapart f hf).2 (hq.trans hqf)
  have hhere : q ≠ path := fun heq => hbelow (heq ▸ List.prefix_refl path)
  rw [addPath_ok hadd, if_neg hhere]
  by_cases hq : q <+: path
  · rw [if_pos hq]
    cases kind with
    | none => rfl
    | some file => exact absurd hq (hapart _ ((htree.file_iff q file).mp hkind)).1
  · rw [if_neg hq, if_neg hbelow, hkind]

/-- A path that conflicts with no file becomes one more file. -/
theorem added (htree : TreeOf files tree) (hpath : path ≠ []) (hapart : ∀ f ∈ files, ¬ f.1 <+: path ∧ ¬ path <+: f.1)
    (hadd : addPath entry path tree = .ok tree') : TreeOf (files ++ [(path, entry)]) tree' where
  file_iff q file := by
    constructor
    · intro hfile
      rw [addPath_ok hadd] at hfile
      split at hfile
      case isTrue heq => simp_all
      case isFalse heq =>
        split at hfile
        case isTrue => simp at hfile
        case isFalse =>
          split at hfile
          case isTrue => simp at hfile
          case isFalse => exact List.mem_append_left _ ((htree.file_iff q file).mp hfile)
    · intro hin
      rcases List.mem_append.mp hin with hin | hin
      · exact htree.kept hpath hapart hadd ((htree.file_iff q file).mpr hin)
      · obtain ⟨rfl, rfl⟩ : q = path ∧ file = entry := by simpa using hin
        rw [addPath_ok hadd, if_pos rfl]
  dir_iff q := by
    constructor
    · intro hdir
      rw [addPath_ok hadd] at hdir
      split at hdir
      case isTrue => simp at hdir
      case isFalse hne =>
        split at hdir
        case isTrue hq => exact Or.inr ⟨(path, entry), by simp, hq, hne⟩
        case isFalse =>
          split at hdir
          case isTrue => simp at hdir
          case isFalse =>
            refine ((htree.dir_iff q).mp hdir).imp_right ?_
            rintro ⟨f, hf, hq⟩
            exact ⟨f, List.mem_append_left _ hf, hq⟩
    · rintro (rfl | ⟨f, hf, hq, hne⟩)
      · rfl
      · rcases List.mem_append.mp hf with hf | hf
        · exact htree.kept hpath hapart hadd ((htree.dir_iff q).mpr (Or.inr ⟨f, hf, hq, hne⟩))
        · obtain rfl : f = (path, entry) := by simpa using hf
          rw [addPath_ok hadd, if_neg hne, if_pos hq]

end TreeOf

section Load

variable {dataoffset : ℕ} {entries earlier later : List LfileInfo} {lf : LfileInfo}

/-- The files of a sequence of entries. -/
def filesOf (dataoffset : ℕ) (entries : List LfileInfo) : List (List PathName × FileEntry) :=
  entries.map fun lf => (lf.path, lf.entry dataoffset)

/-- The load of a longer sequence goes on with the tree of the shorter one. -/
theorem loadHeader_concat : loadHeader dataoffset (entries ++ [lf]) =
    (loadHeader dataoffset entries).bind fun tree => loadRound dataoffset tree lf := by
  rw [loadHeader, List.foldlM_append]
  cases hload : entries.foldlM (loadRound dataoffset) [] with
  | error stop => rw [loadHeader, hload]; rfl
  | ok tree =>
    rw [loadHeader, hload]
    cases hround : loadRound dataoffset tree lf <;> simp [hround, Except.bind, bind, pure, Except.pure]

/-- A load that stops stays stopped. -/
theorem loadHeader_stopped {stop : LoadStop} (h : loadHeader dataoffset earlier = .error stop) :
    loadHeader dataoffset (earlier ++ later) = .error stop := by
  rw [loadHeader, List.foldlM_append]
  rw [loadHeader] at h
  rw [h]
  rfl

/-- A longer clean sequence is a clean one and a path apart from its paths. -/
theorem clean_concat : Clean (entries ++ [lf]) ↔ Clean entries ∧ lf.path ≠ [] ∧ ∀ e ∈ entries, e.Apart lf := by
  unfold Clean
  rw [List.pairwise_append]
  simp only [List.mem_append, List.mem_singleton, List.pairwise_singleton, or_imp, forall_and, forall_eq]
  tauto

/-- Parts of a clean sequence are clean. -/
theorem Clean.of_append (h : Clean (earlier ++ later)) : Clean earlier :=
  ⟨fun lf hlf => h.1 lf (List.mem_append_left _ hlf), (List.pairwise_append.mp h.2).1⟩

/-- The tree of a clean sequence holds exactly its files. -/
theorem Clean.loaded (h : Clean entries) (dataoffset : ℕ) :
    ∃ tree, loadHeader dataoffset entries = .ok tree ∧ TreeOf (filesOf dataoffset entries) tree := by
  induction entries using List.reverseRecOn with
  | nil => exact ⟨[], rfl, .empty⟩
  | append_singleton entries lf ih =>
    obtain ⟨hclean, hpath, hapart⟩ := clean_concat.mp h
    obtain ⟨tree, hload, htree⟩ := ih hclean
    have hfiles : ∀ f ∈ filesOf dataoffset entries, ¬ f.1 <+: lf.path ∧ ¬ lf.path <+: f.1 := by
      intro f hf
      obtain ⟨e, he, rfl⟩ := List.mem_map.mp hf
      exact hapart e he
    obtain ⟨tree', hadd⟩ : ∃ tree', addPath (lf.entry dataoffset) lf.path tree = .ok tree' :=
      htree.add hpath fun f hf => (hfiles f hf).1
    refine ⟨tree', ?_, ?_⟩
    · rw [loadHeader_concat, hload]
      exact hadd
    · rw [filesOf, List.map_append]
      exact htree.added hpath hfiles hadd

/-- A round of a clean sequence keeps everything that was there. -/
theorem Clean.round_keeps (h : Clean (earlier ++ [lf])) {tree tree' : List PathElement}
    (hload : loadHeader dataoffset earlier = .ok tree) (hround : loadRound dataoffset tree lf = .ok tree')
    {q : List PathName} {kind : Option FileEntry} (hkind : kindAt q tree = some kind) : kindAt q tree' = some kind := by
  obtain ⟨hclean, hpath, hapart⟩ := clean_concat.mp h
  obtain ⟨_, hload', htree⟩ := hclean.loaded dataoffset
  obtain rfl := Except.ok.inj (hload.symm.trans hload')
  refine htree.kept hpath ?_ hround hkind
  intro f hf
  obtain ⟨e, he, rfl⟩ := List.mem_map.mp hf
  exact hapart e he

/-- A load adds no file but those of its entries. -/
theorem HasFile.of_load {q : List PathName} {file : FileEntry} {root root' : List PathElement}
    (hfile : HasFile root' q file) (h : entries.foldlM (loadRound dataoffset) root = .ok root') :
    HasFile root q file ∨ ∃ lf ∈ entries, q = lf.path ∧ file = lf.entry dataoffset := by
  induction entries generalizing root with
  | nil =>
    obtain rfl : root = root' := by simpa [pure, Except.pure] using h
    exact Or.inl hfile
  | cons lf rest ih =>
    rw [List.foldlM_cons] at h
    cases hround : loadRound dataoffset root lf with
    | error stop =>
      rw [hround] at h
      cases h
    | ok next =>
      rw [hround] at h
      rcases ih h with hnext | ⟨e, he, heq⟩
      · exact (hnext.of_addPath hround).imp_right fun heq => ⟨lf, List.mem_cons_self, heq⟩
      · exact Or.inr ⟨e, List.mem_cons_of_mem lf he, heq⟩

/-- A sequence is clean, or it has a first entry that makes it unclean. -/
theorem clean_or_first (entries : List LfileInfo) : Clean entries ∨
    ∃ earlier lf later, entries = earlier ++ lf :: later ∧ Clean earlier ∧ ¬ Clean (earlier ++ [lf]) := by
  induction entries using List.reverseRecOn with
  | nil => exact Or.inl ⟨by simp, by simp⟩
  | append_singleton entries lf ih =>
    rcases ih with hclean | ⟨earlier, e, later, rfl, hclean, hfirst⟩
    · by_cases hall : Clean (entries ++ [lf])
      · exact Or.inl hall
      · exact Or.inr ⟨entries, lf, [], rfl, hclean, hall⟩
    · exact Or.inr ⟨earlier, e, later ++ [lf], by simp, hclean, hfirst⟩

/-- A clean load leads to every file and replaces nothing. -/
theorem Clean.losesNoFile (h : Clean entries) : LosesNoFile dataoffset entries where
  outcome := by
    obtain ⟨tree, hload, htree⟩ := h.loaded dataoffset
    refine Or.inr ⟨tree, hload, fun lf hlf => getPath_of_file ((htree.file_iff _ _).mpr ?_)⟩
    exact List.mem_map.mpr ⟨lf, hlf, rfl⟩
  conflict hconflict := absurd h.2 hconflict
  keeps := by
    rintro earlier lf later tree tree' rfl hload hround q kind hkind
    rw [List.append_cons] at h
    exact h.of_append.round_keeps hload hround hkind

/-- A load that reports a file used as a directory at the first conflict replaces nothing before. -/
theorem losesNoFile_of_reported (hclean : Clean earlier) (hstop : loadHeader dataoffset (earlier ++ [lf]) = .error .invalidFile) :
    LosesNoFile dataoffset (earlier ++ lf :: later) := by
  have hreport : loadHeader dataoffset (earlier ++ lf :: later) = .error .invalidFile := by
    rw [List.append_cons]
    exact loadHeader_stopped hstop
  refine ⟨Or.inl hreport, fun _ => hreport, ?_⟩
  intro before e after tree tree' hsplit hload hround q kind hkind
  have hgoes : loadHeader dataoffset (before ++ [e]) = .ok tree' := by
    rw [loadHeader_concat, hload]
    exact hround
  -- The round before the report belongs to the clean part of the sequence.
  have hbefore : before ++ [e] <+: earlier := by
    have hleft : before ++ [e] <+: earlier ++ lf :: later := by
      rw [hsplit, List.append_cons before e after]
      exact List.prefix_append _ _
    have hright : earlier ++ [lf] <+: earlier ++ lf :: later := by
      rw [List.append_cons earlier lf later]
      exact List.prefix_append _ _
    rcases List.prefix_or_prefix_of_prefix hright hleft with ⟨rest, hrest⟩ | hle
    · rw [← hrest, loadHeader_stopped hstop] at hgoes
      exact absurd hgoes (by simp)
    · rcases List.prefix_concat_iff.mp hle with heq | hle
      · rw [heq, hstop] at hgoes
        exact absurd hgoes (by simp)
      · exact hle
  obtain ⟨rest, rfl⟩ := hbefore
  exact hclean.of_append.round_keeps hload hround hkind

/-- A sequence loses no file exactly when it is clean up to its end, or up to the first entry below an earlier file. -/
theorem loadHeader_losesNoFile_iff (dataoffset : ℕ) (entries : List LfileInfo) : LosesNoFile dataoffset entries ↔
    Clean entries ∨ ∃ earlier lf later, entries = earlier ++ lf :: later ∧ Clean earlier ∧
      ∃ e ∈ earlier, e.path <+: lf.path ∧ e.path ≠ lf.path := by
  constructor
  · intro h
    refine (clean_or_first entries).imp_right ?_
    rintro ⟨earlier, lf, later, rfl, hclean, hfirst⟩
    refine ⟨earlier, lf, later, rfl, hclean, ?_⟩
    by_contra hnone
    push Not at hnone
    obtain ⟨tree, hload, htree⟩ := hclean.loaded dataoffset
    have hfile (q : List PathName) (file : FileEntry) (hq : kindAt q tree = some (some file)) : ∃ e ∈ earlier, e.path = q := by
      obtain ⟨e, he, heq⟩ := List.mem_map.mp ((htree.file_iff q file).mp hq)
      exact ⟨e, he, (Prod.ext_iff.mp heq).1⟩
    have hstep : loadHeader dataoffset (earlier ++ [lf]) = addPath (lf.entry dataoffset) lf.path tree := by
      rw [loadHeader_concat, hload]
      rfl
    cases hadd : addPath (lf.entry dataoffset) lf.path tree with
    | error stop =>
      cases stop with
      | invalidFile =>
        obtain ⟨q, hq, hne, file, hkind⟩ := addPath_invalidFile.mp hadd
        obtain ⟨e, he, rfl⟩ := hfile q file hkind
        exact hne (hnone e he hq)
      | fault =>
        rw [hadd] at hstep
        have hall : loadHeader dataoffset (earlier ++ lf :: later) = .error .fault := by
          rw [List.append_cons]
          exact loadHeader_stopped hstep
        rcases h.outcome with hout | ⟨_, hout, -⟩ <;> simp [hall] at hout
    | ok tree' =>
      have hgo : ¬ (lf.path = [] ∨ ∃ file, kindAt lf.path tree = some (some file)) := by
        intro hfault
        have hstop : addPath (lf.entry dataoffset) lf.path tree = .error .fault := addPath_fault.mpr hfault
        exact absurd (hadd.symm.trans hstop) nofun
      obtain ⟨hpath, hfree⟩ := not_or.mp hgo
      refine hfirst (clean_concat.mpr ⟨hclean, hpath, fun e he => ⟨fun hprefix => ?_, fun hprefix => ?_⟩⟩)
      · refine hfree ⟨e.entry dataoffset, (htree.file_iff _ _).mpr (List.mem_map.mpr ⟨e, he, ?_⟩)⟩
        rw [hnone e he hprefix]
      · -- A directory at the path becomes a file.
        have hdir : kindAt lf.path tree = some none := by
          refine (htree.dir_iff _).mpr (Or.inr ⟨_, List.mem_map.mpr ⟨e, he, rfl⟩, hprefix, fun heq => ?_⟩)
          exact hfree ⟨e.entry dataoffset, (htree.file_iff _ _).mpr (List.mem_map.mpr ⟨e, he, by rw [heq]⟩)⟩
        have hkept := h.keeps earlier lf later tree tree' rfl hload hadd lf.path none hdir
        rw [addPath_ok hadd, if_pos rfl] at hkept
        simp at hkept
  · rintro (hclean | ⟨earlier, lf, later, rfl, hclean, e, he, hprefix, hne⟩)
    · exact hclean.losesNoFile
    · refine losesNoFile_of_reported hclean ?_
      obtain ⟨tree, hload, htree⟩ := hclean.loaded dataoffset
      rw [loadHeader_concat, hload]
      refine addPath_invalidFile.mpr ⟨e.path, hprefix, hne, e.entry dataoffset, (htree.file_iff _ _).mpr ?_⟩
      exact List.mem_map.mpr ⟨e, he, rfl⟩

/-- The file at `a/b` is lost without a report when a file at `a` comes after it. -/
theorem loadHeader_loses_file :
    ¬ LosesNoFile 0x21C [⟨0, 1, [0x61, 0x2F, 0x62]⟩, ⟨1, 1, [0x61]⟩] := by
  intro h
  have hreport := h.conflict (by decide)
  exact absurd hreport nofun

end Load

end Cthulhu
