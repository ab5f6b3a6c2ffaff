import Mathlib.Data.List.Basic
import Mathlib.Data.List.TakeWhile

/-!
# Tokens of a string

A string ends at its first zero. A tokenizer cuts the next token out of the bytes from a position on: it goes past the
separators, takes the bytes up to the next separator or the end of the string, and goes on behind that separator. The
tokens it cuts out one after the other are the parts between the separators that are not empty.
-/

namespace Cthulhu.Lib

variable {sep : ℕ} {bytes lead name s : List ℕ}

/-- The string that bytes begin with. -/
def cString (bytes : List ℕ) : List ℕ := bytes.takeWhile (· ≠ 0)

/-- The parts between the separators that are not empty. -/
def tokens (sep : ℕ) (s : List ℕ) : List (List ℕ) := (s.splitOn sep).filter (· ≠ [])

/-- A token with the separators before it and the bytes to go on with; `more` says that a separator has ended it. -/
structure CutToken where
  lead : List ℕ
  name : List ℕ
  more : Bool
  rest : List ℕ

/-- The bytes gone past, where a separator that has ended the token is overwritten. -/
def CutToken.passed (t : CutToken) : List ℕ := t.lead ++ (t.name ++ if t.more then [0] else [])

/-- The byte can be in a token. -/
def inToken (sep b : ℕ) : Bool := b ≠ sep ∧ b ≠ 0

/-- The next token of some bytes. -/
def cutToken (sep : ℕ) (bytes : List ℕ) : Option CutToken :=
  let lead := bytes.takeWhile (· = sep)
  let start := bytes.dropWhile (· = sep)
  let name := start.takeWhile (inToken sep)
  let behind := start.dropWhile (inToken sep)
  if name = [] then none
  else if behind.head? = some sep then some ⟨lead, name, true, behind.tail⟩
  else some ⟨lead, name, false, behind⟩

/-- The string ends here. -/
def AtEnd (bytes : List ℕ) : Prop := ∀ b ∈ bytes.head?, b = 0

/-- What a token has been cut out of. -/
structure CutToken.Of (t : CutToken) (sep : ℕ) (bytes : List ℕ) : Prop where
  lead : ∀ b ∈ t.lead, b = sep
  nonempty : t.name ≠ []
  name : ∀ b ∈ t.name, b ≠ sep ∧ b ≠ 0
  split : bytes = t.lead ++ (t.name ++ if t.more then sep :: t.rest else t.rest)
  atEnd : t.more = false → AtEnd t.rest

/-- The bytes, split where a token is cut out. -/
theorem lead_append_name (sep : ℕ) (bytes : List ℕ) : bytes = bytes.takeWhile (· = sep) ++
    ((bytes.dropWhile (· = sep)).takeWhile (inToken sep) ++ (bytes.dropWhile (· = sep)).dropWhile (inToken sep)) := by
  rw [List.takeWhile_append_dropWhile, List.takeWhile_append_dropWhile]

/-- Behind a token is a separator, or the end. -/
theorem atEnd_dropWhile (h : (s.dropWhile (inToken sep)).head? ≠ some sep) : AtEnd (s.dropWhile (inToken sep)) := by
  intro b hb
  have hnot := List.head?_dropWhile_not (inToken sep) s
  rw [hb] at hnot
  have hne : b ≠ sep := fun heq => h (by rw [hb, heq])
  simpa [inToken, hne] using hnot

/-- Separators are what is gone past. -/
theorem eq_sep_of_mem {b : ℕ} (h : b ∈ bytes.takeWhile (· = sep)) : b = sep := by
  simpa using List.mem_takeWhile_imp h

/-- Without a token there are only separators before the end. -/
theorem cutToken_none (h : cutToken sep bytes = none) :
    ∃ lead rest, (∀ b ∈ lead, b = sep) ∧ bytes = lead ++ rest ∧ AtEnd rest := by
  unfold cutToken at h
  dsimp only at h
  split at h
  next hname =>
    refine ⟨bytes.takeWhile (· = sep), _, fun b => eq_sep_of_mem, lead_append_name sep bytes, ?_⟩
    rw [hname, List.nil_append]
    apply atEnd_dropWhile
    intro hhead
    have hstart : (bytes.dropWhile (· = sep)).dropWhile (inToken sep) = bytes.dropWhile (· = sep) := by
      have hsplit := List.takeWhile_append_dropWhile (p := inToken sep) (l := bytes.dropWhile (· = sep))
      rwa [hname, List.nil_append] at hsplit
    rw [hstart] at hhead
    have hnot := List.head?_dropWhile_not (fun b => decide (b = sep)) bytes
    rw [hhead] at hnot
    simp at hnot
  next => split at h <;> exact absurd h (by simp)

/-- A token has been cut out of the bytes. -/
theorem cutToken_some {t : CutToken} (h : cutToken sep bytes = some t) : t.Of sep bytes := by
  unfold cutToken at h
  dsimp only at h
  split at h
  next => exact absurd h (by simp)
  next hne =>
    have hname : ∀ b ∈ (bytes.dropWhile (· = sep)).takeWhile (inToken sep), b ≠ sep ∧ b ≠ 0 := by
      intro b hb
      simpa [inToken] using List.mem_takeWhile_imp hb
    split at h
    next hhead =>
      obtain rfl := Option.some.inj h
      refine ⟨fun b => eq_sep_of_mem, hne, hname, ?_, fun hmore => absurd hmore (by simp)⟩
      have hrest := List.cons_head?_tail hhead
      exact hrest ▸ lead_append_name sep bytes
    next hhead =>
      obtain rfl := Option.some.inj h
      exact ⟨fun b => eq_sep_of_mem, hne, hname, lead_append_name sep bytes, fun _ => atEnd_dropWhile hhead⟩

/-- The bytes to go on with are fewer. -/
theorem CutToken.Of.rest_lt {t : CutToken} (h : t.Of sep bytes) : t.rest.length < bytes.length := by
  have hpos := List.length_pos_iff.mpr h.nonempty
  have hlength := congrArg List.length h.split
  simp only [List.length_append] at hlength
  split at hlength
  · rw [List.length_cons] at hlength
    omega
  · omega

/-- Separators before a string are in no token. -/
theorem tokens_lead (h : ∀ b ∈ lead, b = sep) : tokens sep (lead ++ s) = tokens sep s := by
  induction lead with
  | nil => rfl
  | cons b rest ih =>
    have hb : b = sep := h b List.mem_cons_self
    have htail := ih fun c hc => h c (List.mem_cons_of_mem b hc)
    rw [List.cons_append, tokens, List.splitOn_cons_eq_if_modifyHead, hb, if_pos (by simp)]
    simpa [tokens] using htail

/-- A string without separators is one token. -/
theorem tokens_name (hne : name ≠ []) (hname : sep ∉ name) : tokens sep name = [name] := by
  rw [tokens, List.splitOn_eq_singleton hname]
  simp [hne]

/-- Up to the first separator goes the first token. -/
theorem tokens_name_cons (hne : name ≠ []) (hname : sep ∉ name) : tokens sep (name ++ sep :: s) = name :: tokens sep s := by
  rw [tokens, List.splitOn_append_cons_self_of_not_mem hname]
  simp [tokens, hne]

/-- Bytes that are not zero are in the string. -/
theorem cString_append (h : ∀ b ∈ name, b ≠ 0) : cString (name ++ s) = name ++ cString s := by
  rw [cString, List.takeWhile_append_of_pos (by simpa using h), cString]

/-- At its end nothing of the string is left. -/
theorem AtEnd.cString (h : AtEnd s) : Lib.cString s = [] := by
  cases s with
  | nil => rfl
  | cons b rest =>
    obtain rfl : b = 0 := h b rfl
    rfl

/-- At the end there is no token. -/
theorem AtEnd.cutToken (h : AtEnd bytes) (hsep : sep ≠ 0) : Lib.cutToken sep bytes = none := by
  cases bytes with
  | nil => rfl
  | cons b rest =>
    obtain rfl : b = 0 := h b rfl
    simp [Lib.cutToken, inToken, hsep.symm]

/-- The tokens of a string are cut out one after the other. -/
theorem tokens_cutToken (hsep : sep ≠ 0) : tokens sep (cString bytes) =
    match cutToken sep bytes with
    | none => []
    | some t => t.name :: tokens sep (cString t.rest) := by
  cases hcut : cutToken sep bytes with
  | none =>
    obtain ⟨lead, rest, hlead, rfl, hend⟩ := cutToken_none hcut
    rw [cString_append fun b hb => by rw [hlead b hb]; exact hsep, hend.cString, tokens_lead hlead]
    rfl
  | some t =>
    have hof := cutToken_some hcut
    have hfree : sep ∉ t.name := fun h => (hof.name _ h).1 rfl
    rw [hof.split, cString_append fun b hb => by rw [hof.lead b hb]; exact hsep, tokens_lead hof.lead,
      cString_append fun b hb => (hof.name b hb).2]
    cases hmore : t.more with
    | true =>
      have hbehind : cString (sep :: t.rest) = sep :: cString t.rest := List.takeWhile_cons_of_pos (by simpa using hsep)
      rw [if_pos rfl, hbehind, tokens_name_cons hof.nonempty hfree]
    | false =>
      rw [if_neg Bool.false_ne_true, (hof.atEnd hmore).cString, List.append_nil, tokens_name hof.nonempty hfree]
      dsimp only
      rw [(hof.atEnd hmore).cString]
      rfl

end Cthulhu.Lib
