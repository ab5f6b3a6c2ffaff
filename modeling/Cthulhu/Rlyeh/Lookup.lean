import Cthulhu.Rlyeh.LoadHeader
import Mathlib.Data.List.Nodup

/-!
# What a lookup returns

The element at a path is given by a walk from the root along the names of the entries, and `get_path` is
compared with it over every tree that `load_header` builds. The entries of one directory have different names in
such a tree, so that at most one element is at a path. The lookup finds it, or finds that there is none, except
on a path without a component, for which `strtok` answers `NULL`, and on a path that goes on below a file.
-/

namespace Cthulhu

/-- The element that some components lead to from an element. -/
inductive Reached : PathElement → List PathName → PathElement → Prop
  | here (e : PathElement) : Reached e [] e
  | inside {name : PathName} {entries : List PathElement} {child e : PathElement} {rest : List PathName}
    (h : child ∈ entries) (hrest : Reached child rest e) : Reached (.dir name entries) (child.name :: rest) e

/-- The root of a file system, a directory with an empty name. -/
def rootOf (tree : List PathElement) : PathElement := .dir [] tree

/-- A lookup returns exactly the element that the path leads to, `NULL` when it leads to none, and never faults. -/
structure LooksUp (path : List PathName) (tree : List PathElement) : Prop where
  found : ∀ e, getPath path tree = .found e ↔ Reached (rootOf tree) path e
  missing : getPath path tree = .missing ↔ ∀ e, ¬ Reached (rootOf tree) path e
  returns : getPath path tree ≠ .fault

/-- The entries of every directory have different names. -/
inductive DistinctNames : List PathElement → Prop
  | mk {entries : List PathElement} (hnodup : (entries.map PathElement.name).Nodup)
    (hsub : ∀ name sub, .dir name sub ∈ entries → DistinctNames sub) : DistinctNames entries

section Names

variable {name : PathName} {found : PathElement → Except LoadStop PathElement}
  {missing : Except LoadStop PathElement} {entries entries' : List PathElement}

/-- An update keeps the names of a directory, or adds a new one behind them. -/
theorem updateNamed_names (h : updateNamed name found missing entries = .ok entries')
    (hfound : ∀ e x, found e = .ok x → x.name = e.name) (hmissing : ∀ x, missing = .ok x → x.name = name) :
    entries'.map PathElement.name = entries.map PathElement.name ∨
      name ∉ entries.map PathElement.name ∧ entries'.map PathElement.name = entries.map PathElement.name ++ [name] := by
  induction entries generalizing entries' with
  | nil =>
    obtain ⟨x, hx, rfl⟩ := map_ok h
    exact Or.inr ⟨by simp, by simp [hmissing x hx]⟩
  | cons e rest ih =>
    unfold updateNamed at h
    by_cases he : e.name = name
    · rw [if_pos he] at h
      obtain ⟨x, hx, rfl⟩ := map_ok h
      exact Or.inl (by simp [hfound e x hx])
    · rw [if_neg he] at h
      obtain ⟨rest', hrest, rfl⟩ := map_ok h
      rcases ih hrest with hsame | ⟨hnew, hadded⟩
      · exact Or.inl (by simp [hsame])
      · refine Or.inr ⟨?_, by simp [hadded]⟩
        rw [List.map_cons, List.mem_cons, not_or]
        exact ⟨fun heq => he heq.symm, hnew⟩

/-- An update keeps the names of a directory different. -/
theorem updateNamed_nodup (h : updateNamed name found missing entries = .ok entries')
    (hfound : ∀ e x, found e = .ok x → x.name = e.name) (hmissing : ∀ x, missing = .ok x → x.name = name)
    (hnodup : (entries.map PathElement.name).Nodup) : (entries'.map PathElement.name).Nodup := by
  rcases updateNamed_names h hfound hmissing with hsame | ⟨hnew, hadded⟩
  · rw [hsame]
    exact hnodup
  · rw [hadded, ← List.concat_eq_append]
    exact hnodup.concat hnew

end Names

section Distinct

variable {entry : FileEntry} {path : List PathName} {entries entries' tree : List PathElement}

/-- An empty directory has no two entries. -/
theorem distinctNames_nil : DistinctNames [] := .mk List.nodup_nil (by simp)

/-- A path adds no second entry with the same name. -/
theorem addPath_nodup (h : addPath entry path entries = .ok entries') (hnodup : (entries.map PathElement.name).Nodup) :
    (entries'.map PathElement.name).Nodup := by
  match path with
  | [] => exact absurd h (by simp [addPath])
  | [pe] =>
    rw [addPath] at h
    refine updateNamed_nodup h ?_ ?_ hnodup
    · rintro (⟨name, sub⟩ | ⟨name, file⟩) x ⟨⟩
      rfl
    · rintro x ⟨⟩
      rfl
  | pe :: next :: rest =>
    rw [addPath] at h
    refine updateNamed_nodup h ?_ ?_ hnodup
    · rintro (⟨name, sub⟩ | ⟨name, file⟩) x hx
      · obtain ⟨sub', -, rfl⟩ := map_ok hx
        rfl
      · exact absurd hx (by simp)
    · intro x hx
      obtain ⟨sub', -, rfl⟩ := map_ok hx
      rfl

/-- Adding a path keeps the names of every directory different. -/
theorem DistinctNames.addPath (hdistinct : DistinctNames entries) (h : addPath entry path entries = .ok entries') :
    DistinctNames entries' := by
  induction path generalizing entries entries' with
  | nil => exact absurd h (by simp [Cthulhu.addPath])
  | cons pe rest ih =>
    obtain ⟨hnodup, hsub⟩ := hdistinct
    refine .mk (addPath_nodup h hnodup) ?_
    intro name sub hin
    cases rest with
    | nil =>
      obtain ⟨_, -, -, -, hmem⟩ := addPath_last h
      rcases hmem _ hin with heq | hin
      · cases heq
      · exact hsub name sub hin
    | cons next rest =>
      obtain ⟨_, old, _, hadd, -, hold, -, -, hmem⟩ := addPath_inside h
      rcases hmem _ hin with heq | hin
      · cases heq
        refine ih ?_ hadd
        rcases hold with hfind | ⟨-, rfl⟩
        · exact hsub _ old (List.mem_of_find?_eq_some hfind)
        · exact distinctNames_nil
      · exact hsub name sub hin

/-- The entries of every directory of a loaded tree have different names. -/
theorem loadHeader_distinctNames {dataoffset : ℕ} {files : List LfileInfo} (h : loadHeader dataoffset files = .ok tree) :
    DistinctNames tree := by
  induction files using List.reverseRecOn generalizing tree with
  | nil =>
    cases h
    exact distinctNames_nil
  | append_singleton files lf ih =>
    rw [loadHeader_concat] at h
    cases hload : loadHeader dataoffset files with
    | error stop =>
      rw [hload] at h
      exact absurd h nofun
    | ok before =>
      rw [hload] at h
      exact (ih hload).addPath h

end Distinct

section Walk

variable {entries tree : List PathElement} {path : List PathName} {e : PathElement}

/-- A search finds the entry with a name where no other entry has it. -/
theorem DistinctNames.findByName (hdistinct : DistinctNames entries) (h : e ∈ entries) :
    findByName entries e.name = some e := by
  obtain ⟨hnodup, -⟩ := hdistinct
  cases hfind : Cthulhu.findByName entries e.name with
  | none =>
    have hother : ∀ x ∈ entries, ¬ x.name = e.name := by simpa [Cthulhu.findByName] using hfind
    exact absurd rfl (hother e h)
  | some x =>
    have hname : x.name = e.name := name_of_findByName hfind
    rw [List.inj_on_of_nodup_map hnodup (List.mem_of_find?_eq_some hfind) h hname]

/-- An element is reached through an entry of a directory. -/
theorem reached_dir_cons {name pe : PathName} {rest : List PathName} :
    Reached (.dir name entries) (pe :: rest) e ↔ ∃ child ∈ entries, child.name = pe ∧ Reached child rest e := by
  constructor
  · intro h
    cases h with
    | inside hin hrest => exact ⟨_, hin, rfl, hrest⟩
  · rintro ⟨child, hin, rfl, hrest⟩
    exact .inside hin hrest

/-- What is reached below the first component is reached from the entry that a search finds. -/
theorem DistinctNames.reached_cons (hdistinct : DistinctNames entries) {name pe : PathName} {rest : List PathName} :
    Reached (.dir name entries) (pe :: rest) e ↔
      ∃ child, Cthulhu.findByName entries pe = some child ∧ Reached child rest e := by
  rw [reached_dir_cons]
  constructor
  · rintro ⟨child, hin, rfl, hrest⟩
    exact ⟨child, hdistinct.findByName hin, hrest⟩
  · rintro ⟨child, hfind, hrest⟩
    exact ⟨child, List.mem_of_find?_eq_some hfind, name_of_findByName hfind, hrest⟩

/-- A path without a component leads from an element to itself. -/
theorem reached_nil {root : PathElement} : Reached root [] e ↔ root = e := by
  constructor
  · intro h
    cases h
    rfl
  · rintro rfl
    exact .here _

/-- Nothing is reached below a file. -/
theorem not_reached_file {name pe : PathName} {file : FileEntry} {rest : List PathName} :
    ¬ Reached (.file name file) (pe :: rest) e := nofun

/-- What a lookup of a path with a component finds is what the path leads to. -/
theorem DistinctNames.getPath_found (hdistinct : DistinctNames entries) (hpath : path ≠ []) {name : PathName} :
    getPath path entries = .found e ↔ Reached (.dir name entries) path e := by
  induction path generalizing entries name with
  | nil => exact absurd rfl hpath
  | cons pe rest ih =>
    rw [hdistinct.reached_cons]
    cases rest with
    | nil =>
      rw [getPath]
      cases Cthulhu.findByName entries pe with
      | none => simp
      | some child => simp [reached_nil]
    | cons next rest =>
      rw [getPath]
      cases hfind : Cthulhu.findByName entries pe with
      | none => simp
      | some child =>
        cases child with
        | dir dir sub =>
          obtain ⟨-, hsub⟩ := hdistinct
          have hdown := hsub dir sub (List.mem_of_find?_eq_some hfind)
          simpa using ih hdown (List.cons_ne_nil next rest)
        | file dir file => simp [not_reached_file]

/-- A lookup faults when it compares with `NULL` in a directory with entries, or goes on below a file. -/
theorem getPath_fault : getPath path entries = .fault ↔ path = [] ∧ entries ≠ [] ∨ Blocked path entries := by
  induction path generalizing entries with
  | nil =>
    have hfree : ¬ Blocked [] entries := by
      rintro ⟨q, hq, hne, -⟩
      exact hne (List.prefix_nil.mp hq)
    cases entries <;> simp [getPath, hfree]
  | cons pe rest ih =>
    rw [blocked_cons]
    cases rest with
    | nil =>
      rw [getPath]
      cases Cthulhu.findByName entries pe with
      | none => simp
      | some child => cases child <;> simp [Blocked]
    | cons next rest =>
      rw [getPath]
      cases Cthulhu.findByName entries pe with
      | none => simp
      | some child =>
        cases child with
        | dir name sub => simpa using ih
        | file name file => simp

/-- A lookup that neither faults nor finds an element finds none where none is reached. -/
theorem DistinctNames.looksUp (hdistinct : DistinctNames tree) (hpath : path ≠ []) (hfree : ¬ Blocked path tree) :
    LooksUp path tree := by
  have hfound (e : PathElement) : getPath path tree = .found e ↔ Reached (rootOf tree) path e :=
    hdistinct.getPath_found hpath
  have hreturns : getPath path tree ≠ .fault := by
    intro hfault
    rcases getPath_fault.mp hfault with ⟨hnil, -⟩ | hblocked
    · exact hpath hnil
    · exact hfree hblocked
  refine ⟨hfound, ?_, hreturns⟩
  cases hget : getPath path tree with
  | found e => simpa using ⟨e, (hfound e).mp hget⟩
  | missing =>
    refine iff_of_true rfl fun e hreached => ?_
    exact absurd (hget.symm.trans ((hfound e).mpr hreached)) nofun
  | fault => exact absurd hget hreturns

end Walk

section Loaded

variable {dataoffset : ℕ} {files : List LfileInfo} {tree : List PathElement}

/-- In a loaded tree a lookup returns what its path leads to exactly when the path has a component and goes on below no
file. -/
theorem getPath_looksUp_iff (h : loadHeader dataoffset files = .ok tree) (path : List ℕ) :
    LooksUp (components path) tree ↔ components path ≠ [] ∧ ¬ Blocked (components path) tree := by
  constructor
  · intro hlook
    refine ⟨?_, ?_⟩
    · intro hnil
      rw [hnil] at hlook
      have hroot : getPath [] tree = .found (rootOf tree) := (hlook.found _).mpr (.here _)
      rw [getPath] at hroot
      split at hroot <;> exact absurd hroot (by simp)
    · intro hblocked
      exact hlook.returns (getPath_fault.mpr (Or.inr hblocked))
  · rintro ⟨hpath, hfree⟩
    exact (loadHeader_distinctNames h).looksUp hpath hfree

/-- The lookup of `//a/b` in the tree of one file at `a/b`. -/
theorem getPath_looksUp_file :
    LooksUp (components [0x2F, 0x2F, 0x61, 0x2F, 0x62]) [.dir [0x61] [.file [0x62] ⟨1, 0x21C⟩]] ↔
      components [0x2F, 0x2F, 0x61, 0x2F, 0x62] ≠ [] ∧
        ¬ Blocked (components [0x2F, 0x2F, 0x61, 0x2F, 0x62]) [.dir [0x61] [.file [0x62] ⟨1, 0x21C⟩]] := by
  have hload : loadHeader 0x21C [⟨0, 1, [0x61, 0x2F, 0x62]⟩] = .ok [.dir [0x61] [.file [0x62] ⟨1, 0x21C⟩]] := rfl
  exact getPath_looksUp_iff hload _

/-- The lookup of `a/b` takes the entry of a file at `a` for that of a directory. -/
theorem getPath_below_file : loadHeader 0x21C [⟨0, 1, [0x61]⟩] = .ok [.file [0x61] ⟨1, 0x21C⟩] ∧
    ¬ LooksUp (components [0x61, 0x2F, 0x62]) [.file [0x61] ⟨1, 0x21C⟩] :=
  ⟨rfl, fun h => h.returns rfl⟩

end Loaded

end Cthulhu
