import Cthulhu.Rlyeh.PathTree

/-!
# The buffer of a path

`get_path` casts the `const` of its argument away and hands the buffer to `strtok`, which writes a `NUL` over the
separator behind each component it returns. The lookup is modelled here on the bytes of the buffer, with
what it leaves in them, and returns what it returns on the components of the string. The first separator
behind a component is lost even where the lookup finds nothing, and the next lookup in the same buffer sees the first
component only. A call that is replayed looks up a file in the buffer that its earlier attempts left. A string without a
component is a name that is `NULL`, which the lookup compares with the names of the root.
-/

namespace Cthulhu

open Lib

/-- `strtok` with the separator `/` on the bytes from a position on. -/
def strtok (bytes : List ℕ) : Option CutToken := cutToken 0x2F bytes

/-- The loop of `get_path` in a directory, from the component in hand on: its result, and the bytes it leaves. -/
def walkTokens (entries : List PathElement) (t : CutToken) : Lookup × List ℕ :=
  match findByName entries t.name with
  | none => (.missing, t.passed ++ t.rest)
  | some e =>
    match _h : strtok t.rest with
    | none => (.found e, t.passed ++ t.rest)
    | some next =>
      match e with
      | .dir _ sub =>
        let r := walkTokens sub next
        (r.1, t.passed ++ r.2)
      | .file _ _ => (.fault, t.passed ++ (next.passed ++ next.rest))
termination_by t.rest.length
decreasing_by exact (cutToken_some _h).rest_lt

/-- `get_path` on a buffer: its result, and the buffer it leaves. -/
def getPathIn (tree : List PathElement) (buffer : List ℕ) : Lookup × List ℕ :=
  match strtok buffer with
  | none => (if tree.isEmpty then .missing else .fault, buffer)
  | some t => walkTokens tree t

/-- The buffer after a number of lookups. -/
def bufferAfter (tree : List PathElement) (buffer : List ℕ) : ℕ → List ℕ
  | 0 => buffer
  | n + 1 => (getPathIn tree (bufferAfter tree buffer n)).2

/-- What the lookup of one attempt returns, after a number of earlier ones. -/
def attempt (tree : List PathElement) (buffer : List ℕ) (n : ℕ) : Lookup := (getPathIn tree (bufferAfter tree buffer n)).1

/-- The file that `create_process_ivfs` loads; there is none where it returns `ENOENT`. -/
def ivfsFile : Lookup → Option FileEntry
  | .found (.file _ entry) => some entry
  | _ => none

/-- Lookups return and leave the buffer as it is, and each finds what the first one finds, as does each attempt to load a
file. -/
structure LeavesBuffer (tree : List PathElement) (buffer : List ℕ) : Prop where
  returns : ∀ n, attempt tree buffer n ≠ .fault
  unchanged : ∀ n, bufferAfter tree buffer n = buffer
  again : ∀ n, attempt tree buffer n = attempt tree buffer 0
  sameFile : ∀ n, ivfsFile (attempt tree buffer n) = ivfsFile (attempt tree buffer 0)

/-- No separator is behind the first component of the string. -/
def OneComponent (buffer : List ℕ) : Prop := 0x2F ∉ (cString buffer).dropWhile (· = 0x2F)

section Lookup

variable {tree entries : List PathElement} {buffer bytes : List ℕ} {t : CutToken}

/-- The components of a string are what `strtok` returns, one after the other. -/
theorem components_strtok : components (cString bytes) =
    match strtok bytes with
    | none => []
    | some t => t.name :: components (cString t.rest) := tokens_cutToken (by decide)

/-- The loop returns what a lookup of the component in hand and those of the rest returns. -/
theorem walkTokens_result (entries : List PathElement) (t : CutToken) :
    (walkTokens entries t).1 = getPath (t.name :: components (cString t.rest)) entries := by
  fun_induction walkTokens entries t with
  | case1 entries t hfind =>
    cases hcomp : components (cString t.rest) <;> simp [getPath, hfind]
  | case2 entries t e hfind hstop =>
    rw [components_strtok, hstop]
    simp [getPath, hfind]
  | case3 entries t next hnext name sub r hfind ih =>
    rw [components_strtok, hnext]
    simpa [getPath, hfind] using ih
  | case4 entries t next hnext name file hfind =>
    rw [components_strtok, hnext]
    simp [getPath, hfind]

/-- A lookup in a buffer returns what the lookup of the components of its string returns. -/
theorem getPathIn_result (tree : List PathElement) (buffer : List ℕ) :
    (getPathIn tree buffer).1 = getPath (components (cString buffer)) tree := by
  rw [components_strtok, getPathIn]
  cases strtok buffer with
  | none => rfl
  | some t => exact walkTokens_result tree t

/-- The loop leaves the bytes before the saved position as `strtok` left them. -/
theorem walkTokens_passed (entries : List PathElement) (t : CutToken) :
    ∃ rest, (walkTokens entries t).2 = t.passed ++ rest := by
  rw [walkTokens]
  split
  · exact ⟨_, rfl⟩
  · split
    · exact ⟨_, rfl⟩
    · split <;> exact ⟨_, rfl⟩

/-- The loop leaves the bytes behind the last component as they are. -/
theorem walkTokens_atEnd (entries : List PathElement) (hend : AtEnd t.rest) :
    (walkTokens entries t).2 = t.passed ++ t.rest := by
  have hnone : strtok t.rest = none := hend.cutToken (by decide)
  rw [walkTokens]
  split
  · rfl
  · split
    · rfl
    · next h => exact absurd (hnone.symm.trans h) nofun

/-- What is behind the separators before a name begins with the name. -/
theorem dropWhile_lead {lead name s : List ℕ} (hlead : ∀ b ∈ lead, b = 0x2F) (hne : name ≠ [])
    (hname : 0x2F ∉ name) : (lead ++ (name ++ s)).dropWhile (· = 0x2F) = name ++ s := by
  rw [List.dropWhile_append_of_pos (by simpa using hlead)]
  cases name with
  | nil => exact absurd rfl hne
  | cons b rest =>
    have hb : ¬ b = 0x2F := fun heq => hname (heq ▸ List.mem_cons_self)
    rw [List.cons_append, List.dropWhile_cons, if_neg (by simpa using hb)]

/-- The string of bytes that a component was cut out of. -/
theorem cString_cut (hof : t.Of 0x2F bytes) : cString bytes =
    t.lead ++ (t.name ++ if t.more then 0x2F :: cString t.rest else []) := by
  rw [hof.split, cString_append fun b hb => by rw [hof.lead b hb]; decide, cString_append fun b hb => (hof.name b hb).2]
  cases hmore : t.more with
  | true => rfl
  | false =>
    rw [if_neg Bool.false_ne_true, (hof.atEnd hmore).cString]
    rfl

/-- How the first component is cut out of a buffer: not at all, at the end of the string, or at a separator. -/
theorem cut_cases (buffer : List ℕ) :
    strtok buffer = none ∧ OneComponent buffer ∨
    ∃ t, strtok buffer = some t ∧ t.Of 0x2F buffer ∧ (OneComponent buffer ↔ t.more = false) := by
  unfold OneComponent
  cases htok : strtok buffer with
  | none =>
    obtain ⟨lead, rest, hlead, rfl, hend⟩ := cutToken_none htok
    have hnone : lead.dropWhile (· = 0x2F) = [] := List.dropWhile_eq_nil_iff.mpr (by simpa using hlead)
    have hstring : cString (lead ++ rest) = lead := by
      rw [cString_append fun b hb => by rw [hlead b hb]; decide, hend.cString, List.append_nil]
    exact Or.inl ⟨rfl, by rw [hstring, hnone]; exact List.not_mem_nil⟩
  | some t =>
    have hof := cutToken_some htok
    have hfree : 0x2F ∉ t.name := fun h => (hof.name _ h).1 rfl
    refine Or.inr ⟨t, rfl, hof, ?_⟩
    rw [cString_cut hof, dropWhile_lead hof.lead hof.nonempty hfree]
    cases t.more with
    | true => simp
    | false => simpa using hfree

/-- A lookup leaves the buffer as it is exactly when no separator is behind the first component. -/
theorem getPathIn_unchanged_iff (tree : List PathElement) (buffer : List ℕ) :
    (getPathIn tree buffer).2 = buffer ↔ OneComponent buffer := by
  rcases cut_cases buffer with ⟨htok, hone⟩ | ⟨t, htok, hof, hone⟩
  · exact iff_of_true (by rw [getPathIn, htok]) hone
  rw [hone, getPathIn, htok]
  dsimp only
  have hsplit := hof.split
  cases hmore : t.more with
  | true =>
    refine iff_of_false (fun hsame => ?_) (by decide)
    obtain ⟨left, hleft⟩ := walkTokens_passed tree t
    rw [hmore, if_pos rfl] at hsplit
    rw [hleft, CutToken.passed, hmore, if_pos rfl, hsplit, List.append_assoc, List.append_assoc] at hsame
    -- the byte behind the component is a `NUL` now
    have hbyte := List.append_cancel_left (List.append_cancel_left hsame)
    simp at hbyte
  | false =>
    refine iff_of_true ?_ rfl
    rw [hmore, if_neg Bool.false_ne_true] at hsplit
    rw [walkTokens_atEnd tree (hof.atEnd hmore), CutToken.passed, hmore, if_neg Bool.false_ne_true, List.append_nil,
      List.append_assoc, ← hsplit]

/-- The components of a string without a separator behind the first one. -/
theorem components_of_oneComponent (h : OneComponent buffer) :
    components (cString buffer) = [] ∨ ∃ pe, components (cString buffer) = [pe] := by
  rcases cut_cases buffer with ⟨htok, -⟩ | ⟨t, htok, hof, hone⟩
  · exact Or.inl (by rw [components_strtok, htok])
  · refine Or.inr ⟨t.name, ?_⟩
    rw [components_strtok, htok]
    dsimp only
    rw [(hof.atEnd (hone.mp h)).cString]
    rfl

/-- Where a separator is behind the first component, the next lookup looks up that component alone. -/
theorem attempt_cutOff (hmore : ¬ OneComponent buffer) (tree : List PathElement) :
    ∃ pe, (components (cString buffer)).head? = some pe ∧ attempt tree buffer 1 = getPath [pe] tree := by
  rcases cut_cases buffer with ⟨-, hone⟩ | ⟨t, htok, hof, hone⟩
  · exact absurd hone hmore
  · have hcut : t.more = true := by simpa using mt hone.mpr hmore
    have hfree : 0x2F ∉ t.name := fun h => (hof.name _ h).1 rfl
    refine ⟨t.name, by rw [components_strtok, htok]; rfl, ?_⟩
    obtain ⟨left, hleft⟩ := walkTokens_passed tree t
    have hafter : bufferAfter tree buffer 1 = t.lead ++ (t.name ++ 0 :: left) := by
      rw [bufferAfter, bufferAfter, getPathIn, htok]
      dsimp only
      rw [hleft, CutToken.passed, hcut, if_pos rfl, List.append_assoc, List.append_assoc, List.singleton_append]
    have hend : cString (0 :: left) = [] := rfl
    rw [attempt, hafter, getPathIn_result, cString_append fun b hb => by rw [hof.lead b hb]; decide,
      cString_append fun b hb => (hof.name b hb).2, hend, List.append_nil, components, tokens_lead hof.lead,
      tokens_name hof.nonempty hfree]

/-- Lookups return, leave a buffer as it is, and resolve the same element each time, exactly when no separator is behind the
first component of its string and there is a component, or nothing in the root to compare it with. -/
theorem getPath_leavesBuffer_iff (tree : List PathElement) (buffer : List ℕ) :
    LeavesBuffer tree buffer ↔ OneComponent buffer ∧ (tree = [] ∨ components (cString buffer) ≠ []) := by
  constructor
  · intro h
    refine ⟨(getPathIn_unchanged_iff tree buffer).mp (h.unchanged 1), ?_⟩
    by_contra hnone
    rw [not_or, not_not] at hnone
    have hempty : tree.isEmpty = false := by simpa using hnone.1
    apply h.returns 0
    rw [attempt, bufferAfter, getPathIn_result, hnone.2, getPath, hempty]
    rfl
  · rintro ⟨hone, hfound⟩
    have hsame := (getPathIn_unchanged_iff tree buffer).mpr hone
    have hall (n : ℕ) : bufferAfter tree buffer n = buffer := by
      induction n with
      | zero => rfl
      | succ n ih => rw [bufferAfter, ih, hsame]
    have hagain (n : ℕ) : attempt tree buffer n = attempt tree buffer 0 := by
      rw [attempt, attempt, hall n, hall 0]
    have hfirst : attempt tree buffer 0 ≠ .fault := by
      rw [attempt, hall 0, getPathIn_result]
      rcases components_of_oneComponent hone with hnil | ⟨pe, hpe⟩
      · rw [hnil, hfound.resolve_right (not_not.mpr hnil), getPath]
        simp
      · rw [hpe, getPath]
        cases findByName tree pe <;> simp
    exact ⟨fun n => by rw [hagain n]; exact hfirst, hall, hagain, fun n => by rw [hagain n]⟩

/-- The first lookup of `a/b` finds the file there, and leaves `a` in the buffer, where a second one finds a directory. -/
theorem getPath_cuts_buffer :
    let tree := [PathElement.dir [0x61] [.file [0x62] ⟨1, 0x21C⟩]]
    let buffer := [0x61, 0x2F, 0x62, 0]
    ivfsFile (attempt tree buffer 0) = some ⟨1, 0x21C⟩ ∧ bufferAfter tree buffer 1 = [0x61, 0, 0x62, 0] ∧
      ivfsFile (attempt tree buffer 1) = none ∧ ¬ LeavesBuffer tree buffer := by
  intro tree buffer
  have hfirst : ivfsFile (attempt tree buffer 0) = some ⟨1, 0x21C⟩ := by
    rw [attempt, getPathIn_result]
    rfl
  have hcut : bufferAfter tree buffer 1 = [0x61, 0, 0x62, 0] := by
    simp [tree, buffer, bufferAfter, getPathIn, walkTokens, strtok, cutToken, CutToken.passed, inToken, findByName,
      PathElement.name]
  have hsecond : ivfsFile (attempt tree buffer 1) = none := by
    rw [attempt, hcut, getPathIn_result]
    rfl
  refine ⟨hfirst, hcut, hsecond, fun h => ?_⟩
  have hsame := (h.unchanged 1).symm.trans hcut
  exact absurd hsame (by decide)

end Lookup

end Cthulhu
