import Mathlib.Data.List.Infix
import Cthulhu.Lib.Tokens

/-!
# The tree of the initial file system

The path elements of `rlyeh.c`, the entry that `load_header` adds for one path, and `get_path`. A name is
the bytes of a C string without its `NUL`, and the arrays of a directory are lists. Every
component of a path is first made a directory, and the last one is turned into a file afterwards.

`load_header` stops in two ways. It reports a file that is used as a directory, and it faults where
it passes `NULL` for a name or takes the entry of a file for that of a directory.
-/

namespace Cthulhu

/-- The bytes of a name. -/
abbrev PathName := List ℕ

/-- `file_entry_t`. -/
structure FileEntry where
  size : ℕ
  offset : ℕ
  deriving DecidableEq, Repr

/-- `path_element_t`. -/
inductive PathElement
  | dir (name : PathName) (entries : List PathElement)
  | file (name : PathName) (entry : FileEntry)

/-- The `name` field. -/
def PathElement.name : PathElement → PathName
  | .dir name _ => name
  | .file name _ => name

/-- `INITRD_ERROR_INVALID_FILE`, or a fault. -/
inductive LoadStop
  | invalidFile
  | fault
  deriving DecidableEq, Repr

/-- `array_find_by_pred` with `find_by_name`. -/
def findByName (entries : List PathElement) (name : PathName) : Option PathElement :=
  entries.find? fun e => e.name = name

/-- A change of the element with a name, or a new element behind the others when there is none. -/
def updateNamed (name : PathName) (found : PathElement → Except LoadStop PathElement)
    (missing : Except LoadStop PathElement) : List PathElement → Except LoadStop (List PathElement)
  | [] => missing.map fun e => [e]
  | e :: rest =>
    if e.name = name then (found e).map (· :: rest)
    else (updateNamed name found missing rest).map (e :: ·)

/-- The round of `load_header` for one path, with its components: the entries of a directory afterwards. -/
def addPath (entry : FileEntry) : List PathName → List PathElement → Except LoadStop (List PathElement)
  | [], _ => .error .fault
  | [pe], entries =>
    updateNamed pe
      (fun
        | .dir name _ => .ok (.file name entry)
        | .file _ _ => .error .fault)
      (.ok (.file pe entry)) entries
  | pe :: next :: rest, entries =>
    updateNamed pe
      (fun
        | .dir name sub => (addPath entry (next :: rest) sub).map (.dir name)
        | .file _ _ => .error .invalidFile)
      ((addPath entry (next :: rest) []).map (.dir pe)) entries

/-- What `get_path` returns: an element, `NULL`, or nothing because it faults. -/
inductive Lookup
  | found (e : PathElement)
  | missing
  | fault

/-- `get_path` on the components of a path. -/
def getPath : List PathName → List PathElement → Lookup
  | [], entries => if entries.isEmpty then .missing else .fault
  | [pe], entries =>
    match findByName entries pe with
    | none => .missing
    | some e => .found e
  | pe :: next :: rest, entries =>
    match findByName entries pe with
    | none => .missing
    | some (.dir _ sub) => getPath (next :: rest) sub
    | some (.file _ _) => .fault

/-- The components that `strtok` finds in a path. -/
def components (fpath : List ℕ) : List PathName := Lib.tokens 0x2F fpath

/-- What is at a path: nothing, a directory, or a file. -/
def kindAt : List PathName → List PathElement → Option (Option FileEntry)
  | [], _ => some none
  | pe :: rest, entries =>
    match findByName entries pe with
    | none => none
    | some (.dir _ sub) => kindAt rest sub
    | some (.file _ entry) => if rest = [] then some (some entry) else none

/-- A file element somewhere in the tree, whether or not a lookup finds it. -/
inductive HasFile : List PathElement → List PathName → FileEntry → Prop
  | here {entries : List PathElement} {name : PathName} {entry : FileEntry} (h : .file name entry ∈ entries) :
    HasFile entries [name] entry
  | inside {entries sub : List PathElement} {name : PathName} {path : List PathName} {entry : FileEntry}
    (h : .dir name sub ∈ entries) (hsub : HasFile sub path entry) : HasFile entries (name :: path) entry

/-- A search finds an element with the name. -/
theorem name_of_findByName {entries : List PathElement} {name : PathName} {e : PathElement}
    (h : findByName entries name = some e) : e.name = name := by
  simpa using List.find?_some h

/-- A change of a result that succeeds changes a result. -/
theorem map_ok {α β ε : Type*} {f : α → β} {r : Except ε α} {b : β} (h : r.map f = .ok b) :
    ∃ a, r = .ok a ∧ f a = b := by
  cases r with
  | error stop => exact absurd h (by simp [Except.map])
  | ok a => exact ⟨a, rfl, by simpa [Except.map] using h⟩

section Update

variable {name : PathName} {found : PathElement → Except LoadStop PathElement}
  {missing : Except LoadStop PathElement} {entries entries' : List PathElement}

/-- An update stops when the change of the element it finds stops. -/
theorem updateNamed_error {stop : LoadStop} : updateNamed name found missing entries = .error stop ↔
    match findByName entries name with
    | none => missing = .error stop
    | some e => found e = .error stop := by
  induction entries with
  | nil =>
    unfold updateNamed findByName
    cases missing <;> simp [Except.map]
  | cons e rest ih =>
    unfold updateNamed findByName
    by_cases he : e.name = name
    · simp only [he, if_true, List.find?_cons, decide_true]
      cases found e <;> simp [Except.map]
    · simp only [he, if_false, List.find?_cons, decide_false]
      rw [show (rest.find? fun e => decide (e.name = name)) = findByName rest name from rfl, ← ih]
      cases updateNamed name found missing rest <;> simp [Except.map]

/-- An update leaves one element changed or added, and every other one in its place. -/
theorem updateNamed_ok (h : updateNamed name found missing entries = .ok entries')
    (hfound : ∀ e x, found e = .ok x → x.name = e.name) (hmissing : ∀ x, missing = .ok x → x.name = name) :
    ∃ x, (match findByName entries name with
      | none => missing = .ok x
      | some e => found e = .ok x) ∧
      findByName entries' name = some x ∧ (∀ other, other ≠ name → findByName entries' other = findByName entries other) ∧
      ∀ y ∈ entries', y = x ∨ y ∈ entries := by
  induction entries generalizing entries' with
  | nil =>
    unfold updateNamed at h
    cases hnew : missing with
    | error stop =>
      rw [hnew] at h
      exact absurd h (by simp [Except.map])
    | ok x =>
      rw [hnew] at h
      obtain rfl : [x] = entries' := by simpa [Except.map] using h
      have hx := hmissing x hnew
      refine ⟨x, by simp [findByName], by simp [findByName, hx], fun other hother => ?_, by simp⟩
      have hne : ¬ name = other := fun heq => hother heq.symm
      simp [findByName, hx, hne]
  | cons e rest ih =>
    unfold updateNamed at h
    by_cases he : e.name = name
    · rw [if_pos he] at h
      cases hchange : found e with
      | error stop =>
        rw [hchange] at h
        exact absurd h (by simp [Except.map])
      | ok x =>
        rw [hchange] at h
        obtain rfl : x :: rest = entries' := by simpa [Except.map] using h
        have hx := (hfound e x hchange).trans he
        refine ⟨x, by simp [findByName, he, hchange], by simp [findByName, hx], fun other hother => ?_, fun y hy => ?_⟩
        · have hne : ¬ name = other := fun heq => hother heq.symm
          simp [findByName, hx, he, hne]
        · exact (List.mem_cons.mp hy).imp_right (List.mem_cons_of_mem e)
    · rw [if_neg he] at h
      cases hrest : updateNamed name found missing rest with
      | error stop =>
        rw [hrest] at h
        exact absurd h (by simp [Except.map])
      | ok rest' =>
        rw [hrest] at h
        obtain rfl : e :: rest' = entries' := by simpa [Except.map] using h
        obtain ⟨x, hx, hhere, hother, hmem⟩ := ih hrest
        have hhead (n : PathName) (l : List PathElement) (hn : ¬ e.name = n) :
            findByName (e :: l) n = findByName l n := by
          simp [findByName, hn]
        refine ⟨x, by rw [hhead name rest he]; exact hx, by rw [hhead name rest' he, hhere], fun other hne => ?_, ?_⟩
        · by_cases hn : e.name = other
          · simp [findByName, hn]
          · rw [hhead other rest' hn, hhead other rest hn, hother other hne]
        · intro y hy
          rcases List.mem_cons.mp hy with rfl | hy
          · exact Or.inr List.mem_cons_self
          · exact (hmem y hy).imp_right (List.mem_cons_of_mem e)

end Update

section Kinds

variable {pe : PathName} {rest : List PathName} {entries : List PathElement}

/-- The root is a directory. -/
@[simp]
theorem kindAt_root : kindAt [] entries = some none := rfl

/-- Nothing is below a directory without entries. -/
@[simp]
theorem kindAt_cons_nil : kindAt (pe :: rest) [] = none := rfl

/-- Nothing is at a path whose first component names no entry. -/
theorem kindAt_of_missing (h : findByName entries pe = none) : kindAt (pe :: rest) entries = none := by
  rw [kindAt, h]

/-- A path goes on in the directory that its first component names. -/
theorem kindAt_of_dir {name : PathName} {sub : List PathElement} (h : findByName entries pe = some (.dir name sub)) :
    kindAt (pe :: rest) entries = kindAt rest sub := by
  rw [kindAt, h]

/-- A path ends at the file that its first component names. -/
theorem kindAt_of_file {name : PathName} {entry : FileEntry} (h : findByName entries pe = some (.file name entry)) :
    kindAt (pe :: rest) entries = if rest = [] then some (some entry) else none := by
  rw [kindAt, h]

/-- A lookup of a path at which a file is returns the element of the file. -/
theorem getPath_of_file {path : List PathName} {entry : FileEntry} (h : kindAt path entries = some (some entry)) :
    ∃ name, getPath path entries = .found (.file name entry) := by
  induction path generalizing entries with
  | nil => simp at h
  | cons pe rest ih =>
    cases hfind : findByName entries pe with
    | none => simp [kindAt_of_missing hfind] at h
    | some e =>
      cases e with
      | dir name sub =>
        rw [kindAt_of_dir hfind] at h
        cases rest with
        | nil => simp at h
        | cons next rest =>
          rw [getPath, hfind]
          exact ih h
      | file name file =>
        rw [kindAt_of_file hfind] at h
        obtain ⟨rfl, rfl⟩ : rest = [] ∧ file = entry := by simpa using h
        exact ⟨name, by rw [getPath, hfind]⟩

end Kinds

section AddPath

variable {entry : FileEntry} {path : List PathName} {entries entries' : List PathElement}

/-- A file is at a proper prefix of the path. -/
def Blocked (path : List PathName) (entries : List PathElement) : Prop :=
  ∃ q, q <+: path ∧ q ≠ path ∧ ∃ file, kindAt q entries = some (some file)

/-- What is blocked below a first component is blocked below the entry it names. -/
theorem blocked_cons {pe : PathName} {rest : List PathName} : Blocked (pe :: rest) entries ↔
    match findByName entries pe with
    | none => False
    | some (.dir _ sub) => Blocked rest sub
    | some (.file _ _) => rest ≠ [] := by
  have hsplit : Blocked (pe :: rest) entries ↔
      ∃ q, q <+: rest ∧ q ≠ rest ∧ ∃ file, kindAt (pe :: q) entries = some (some file) := by
    constructor
    · rintro ⟨q, hq, hne, file, hfile⟩
      cases q with
      | nil => simp at hfile
      | cons c q =>
        obtain ⟨rfl, hq'⟩ := List.cons_prefix_cons.mp hq
        exact ⟨q, hq', fun heq => hne (by rw [heq]), file, hfile⟩
    · rintro ⟨q, hq, hne, file, hfile⟩
      exact ⟨pe :: q, List.cons_prefix_cons.mpr ⟨rfl, hq⟩, fun heq => hne (List.cons.inj heq).2, file, hfile⟩
  rw [hsplit]
  cases hfind : findByName entries pe with
  | none => simp [kindAt_of_missing hfind]
  | some e =>
    cases e with
    | dir name sub =>
      simp only [kindAt_of_dir hfind]
      exact Iff.rfl
    | file name file =>
      simp only [kindAt_of_file hfind]
      constructor
      · rintro ⟨q, hq, hne, -⟩ rfl
        exact hne (List.prefix_nil.mp hq)
      · intro hrest
        exact ⟨[], List.nil_prefix, hrest.symm, file, by simp⟩

/-- The load reports a file used as a directory exactly when the path is blocked. -/
theorem addPath_invalidFile : addPath entry path entries = .error .invalidFile ↔ Blocked path entries := by
  induction path generalizing entries with
  | nil =>
    constructor
    · intro h
      exact absurd h (by simp [addPath])
    · rintro ⟨q, hq, hne, -⟩
      exact absurd (List.prefix_nil.mp hq) hne
  | cons pe rest ih =>
    rw [blocked_cons]
    cases rest with
    | nil =>
      rw [addPath, updateNamed_error]
      cases findByName entries pe with
      | none => simp
      | some e => cases e <;> simp [Blocked]
    | cons next rest =>
      rw [addPath, updateNamed_error]
      have hmap (sub : List PathElement) (name : PathName) :
          (addPath entry (next :: rest) sub).map (PathElement.dir name) = .error .invalidFile ↔
            Blocked (next :: rest) sub := by
        rw [← ih]
        cases addPath entry (next :: rest) sub <;> simp [Except.map]
      cases hfind : findByName entries pe with
      | none =>
        have hempty : ¬ Blocked (next :: rest) [] := by
          rw [blocked_cons]
          exact id
        simpa only [hmap, iff_false] using hempty
      | some e =>
        cases e with
        | dir name sub => exact hmap sub name
        | file name file => simp

/-- The load faults exactly when the path has no component or a file is already there. -/
theorem addPath_fault : addPath entry path entries = .error .fault ↔
    path = [] ∨ ∃ file, kindAt path entries = some (some file) := by
  induction path generalizing entries with
  | nil => simp [addPath]
  | cons pe rest ih =>
    cases rest with
    | nil =>
      rw [addPath, updateNamed_error]
      cases hfind : findByName entries pe with
      | none => simp [kindAt_of_missing hfind]
      | some e =>
        cases e with
        | dir name sub => simp [kindAt_of_dir hfind]
        | file name file => simp [kindAt_of_file hfind]
    | cons next rest =>
      rw [addPath, updateNamed_error]
      have hmap (sub : List PathElement) (name : PathName) :
          (addPath entry (next :: rest) sub).map (PathElement.dir name) = .error .fault ↔
            ∃ file, kindAt (next :: rest) sub = some (some file) := by
        have hcase : addPath entry (next :: rest) sub = _ ↔ _ := ih
        simp only [reduceCtorEq, false_or] at hcase
        rw [← hcase]
        cases addPath entry (next :: rest) sub <;> simp [Except.map]
      simp only [reduceCtorEq, false_or]
      cases hfind : findByName entries pe with
      | none => simp [hmap, kindAt_of_missing hfind]
      | some e =>
        cases e with
        | dir name sub =>
          rw [kindAt_of_dir hfind]
          exact hmap sub name
        | file name file => simp [kindAt_of_file hfind]

/-- The last component of a path becomes a file, and the other entries stay. -/
theorem addPath_last {pe : PathName} (h : addPath entry [pe] entries = .ok entries') :
    ∃ name, findByName entries' pe = some (.file name entry) ∧
      (∀ other, other ≠ pe → findByName entries' other = findByName entries other) ∧
      name = pe ∧ ∀ y ∈ entries', y = .file name entry ∨ y ∈ entries := by
  rw [addPath] at h
  obtain ⟨x, hx, hhere, hother, hmem⟩ := updateNamed_ok h
    (by rintro (⟨name, sub⟩ | ⟨name, file⟩) x ⟨⟩; rfl) (by rintro x ⟨⟩; rfl)
  obtain ⟨name, rfl⟩ : ∃ name, x = .file name entry := by
    cases hfind : findByName entries pe with
    | none =>
      rw [hfind] at hx
      exact ⟨pe, by simpa using hx.symm⟩
    | some e =>
      rw [hfind] at hx
      cases e with
      | dir name sub => exact ⟨name, by simpa using hx.symm⟩
      | file name file => exact absurd hx (by simp)
  exact ⟨name, hhere, hother, name_of_findByName hhere, hmem⟩

/-- The first component of a longer path is a directory afterwards, in which the rest of the path was added, and the
other entries stay. -/
theorem addPath_inside {pe next : PathName} {rest : List PathName}
    (h : addPath entry (pe :: next :: rest) entries = .ok entries') :
    ∃ name sub sub', addPath entry (next :: rest) sub = .ok sub' ∧ findByName entries' pe = some (.dir name sub') ∧
      (findByName entries pe = some (.dir name sub) ∨ findByName entries pe = none ∧ sub = []) ∧
      (∀ other, other ≠ pe → findByName entries' other = findByName entries other) ∧
      name = pe ∧ ∀ y ∈ entries', y = .dir name sub' ∨ y ∈ entries := by
  rw [addPath] at h
  obtain ⟨x, hx, hhere, hother, hmem⟩ := updateNamed_ok h
    (by
      rintro (⟨name, sub⟩ | ⟨name, file⟩) x hx
      · obtain ⟨sub', -, rfl⟩ := map_ok hx
        rfl
      · exact absurd hx (by simp))
    (by
      intro x hx
      obtain ⟨sub', -, rfl⟩ := map_ok hx
      rfl)
  cases hfind : findByName entries pe with
  | none =>
    rw [hfind] at hx
    obtain ⟨sub', hsub, rfl⟩ := map_ok hx
    exact ⟨pe, [], sub', hsub, hhere, Or.inr ⟨rfl, rfl⟩, hother, rfl, hmem⟩
  | some e =>
    rw [hfind] at hx
    cases e with
    | dir name sub =>
      obtain ⟨sub', hsub, rfl⟩ := map_ok hx
      exact ⟨name, sub, sub', hsub, hhere, Or.inl rfl, hother, name_of_findByName hhere, hmem⟩
    | file name file => exact absurd hx (by simp)

/-- What is anywhere after a path was added: the file at the path, directories above it, nothing below it, and
what was there before elsewhere. -/
theorem addPath_ok (h : addPath entry path entries = .ok entries') (q : List PathName) :
    kindAt q entries' =
      if q = path then some (some entry) else if q <+: path then some none
      else if path <+: q then none else kindAt q entries := by
  induction path generalizing entries entries' q with
  | nil => exact absurd h (by simp [addPath])
  | cons pe rest ih =>
    cases q with
    | nil => simp
    | cons c q =>
      have helse (hother : ∀ other, other ≠ pe → findByName entries' other = findByName entries other) (hc : c ≠ pe) :
          kindAt (c :: q) entries' = if c :: q = pe :: rest then some (some entry)
            else if c :: q <+: pe :: rest then some none
            else if pe :: rest <+: c :: q then none else kindAt (c :: q) entries := by
        have hkind : kindAt (c :: q) entries' = kindAt (c :: q) entries := by
          rw [kindAt, kindAt, hother c hc]
        simp [hkind, hc, hc.symm, List.cons_prefix_cons]
      cases rest with
      | nil =>
        obtain ⟨name, hhere, hother, -, -⟩ := addPath_last h
        by_cases hc : c = pe
        · subst hc
          rw [kindAt_of_file hhere]
          by_cases hq : q = []
          · simp [hq]
          · simp [hq, List.cons_prefix_cons]
        · exact helse hother hc
      | cons next rest =>
        obtain ⟨name, sub, sub', hsub, hhere, hold, hother, -, -⟩ := addPath_inside h
        by_cases hc : c = pe
        · subst hc
          have hkind (l : PathName) (r : List PathName) : kindAt (c :: l :: r) entries = kindAt (l :: r) sub := by
            rcases hold with hfind | ⟨hfind, rfl⟩
            · exact kindAt_of_dir hfind
            · exact kindAt_of_missing hfind
          rw [kindAt_of_dir hhere, ih hsub]
          cases q with
          | nil => simp [List.cons_prefix_cons]
          | cons l r => simp [List.cons_prefix_cons, hkind]
        · exact helse hother hc

/-- Adding a path adds no other file. -/
theorem HasFile.of_addPath {q : List PathName} {file : FileEntry} (hfile : HasFile entries' q file)
    (h : addPath entry path entries = .ok entries') : HasFile entries q file ∨ q = path ∧ file = entry := by
  induction path generalizing entries entries' q with
  | nil => exact absurd h (by simp [addPath])
  | cons pe rest ih =>
    cases rest with
    | nil =>
      obtain ⟨name, -, -, rfl, hmem⟩ := addPath_last h
      cases hfile with
      | here hin =>
        rcases hmem _ hin with heq | hin
        · cases heq
          exact Or.inr ⟨rfl, rfl⟩
        · exact Or.inl (.here hin)
      | inside hin hsub =>
        rcases hmem _ hin with heq | hin
        · cases heq
        · exact Or.inl (.inside hin hsub)
    | cons next rest =>
      obtain ⟨name, sub, sub', hadd, -, hold, -, rfl, hmem⟩ := addPath_inside h
      cases hfile with
      | here hin =>
        rcases hmem _ hin with heq | hin
        · cases heq
        · exact Or.inl (.here hin)
      | inside hin hsub =>
        rcases hmem _ hin with heq | hin
        · cases heq
          rcases ih hsub hadd with hsub | ⟨rfl, rfl⟩
          · rcases hold with hfind | ⟨-, rfl⟩
            · exact Or.inl (.inside (List.mem_of_find?_eq_some hfind) hsub)
            · cases hsub with
              | here hin => exact absurd hin List.not_mem_nil
              | inside hin _ => exact absurd hin List.not_mem_nil
          · exact Or.inr ⟨rfl, rfl⟩
        · exact Or.inl (.inside hin hsub)

end AddPath

end Cthulhu
