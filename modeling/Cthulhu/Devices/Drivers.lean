import Mathlib.Data.List.Find
import Cthulhu.Lib.Tokens

/-!
# The table of drivers

`load_drivers` cuts the lines of `drivers.conf` out of one buffer and each line at its first colon, and puts the pointers to
both parts into a table. In a line without a colon the pointer to the path goes behind the end of the line.
-/

namespace Cthulhu

open Lib

/-- A call of `table_set`: the line that it is made for, the text of the id, and the place in the buffer that the pointer to
the path leads to. -/
structure DriverSet where
  driverEntry : List ℕ
  driverId : List ℕ
  driverPath : ℕ

/-- A line as the loop over its bytes leaves it: a `NUL` in the place of the first colon. -/
def splitAtColon (line : List ℕ) : List ℕ :=
  line.takeWhile (· ≠ 0x3A) ++ if 0x3A ∈ line then 0 :: (line.dropWhile (· ≠ 0x3A)).tail else []

/-- `load_drivers` from a position of the buffer on: its calls of `table_set`, and the bytes it leaves. The loop over the
bytes of a line ends at its first colon or behind it, and the path is said to begin one byte further. -/
def loadDrivers (position : ℕ) (bytes : List ℕ) : List DriverSet × List ℕ :=
  match _h : cutToken 0x0A bytes with
  | none => ([], bytes)
  | some t =>
    let dd := position + t.lead.length + (t.name.takeWhile (· ≠ 0x3A)).length
    let passed := t.lead ++ splitAtColon t.name ++ if t.more then [0] else []
    let r := loadDrivers (position + passed.length) t.rest
    (⟨t.name, t.name.takeWhile (· ≠ 0x3A), dd + 1⟩ :: r.1, passed ++ r.2)
termination_by bytes.length
decreasing_by exact (cutToken_some _h).rest_lt

/-- The buffer of `load_from_initramfs`: the contents of the file, a `NUL`, and what is behind the buffer. -/
def driverBuffer (contents beyond : List ℕ) : List ℕ := contents ++ 0 :: beyond

/-- The text that a pointer into the buffer leads to, when all lines have been gone through. -/
def textAt (contents beyond : List ℕ) (place : ℕ) : List ℕ :=
  cString ((loadDrivers 0 (driverBuffer contents beyond)).2.drop place)

/-- What the table has for an id: the last that was set. -/
def tableGet (contents beyond id : List ℕ) : Option (List ℕ) :=
  ((loadDrivers 0 (driverBuffer contents beyond)).1.reverse.find? fun s => s.driverId = id).map fun s =>
    textAt contents beyond s.driverPath

/-- What a file says of an id: the path of its last line `id:path`. -/
def configuredPath (contents id : List ℕ) : Option (List ℕ) :=
  (((tokens 0x0A contents).filter fun line => 0x3A ∈ line).reverse.find? fun line => line.takeWhile (· ≠ 0x3A) = id).map
    fun line => (line.dropWhile (· ≠ 0x3A)).tail

/-- What loading a file is for: the table says what the file says, and nothing is set for a line without a colon. -/
structure DriversLoaded (contents beyond : List ℕ) : Prop where
  table : ∀ id, tableGet contents beyond id = configuredPath contents id
  colons : ∀ s ∈ (loadDrivers 0 (driverBuffer contents beyond)).1, 0x3A ∈ s.driverEntry

variable {contents beyond bytes before : List ℕ}

/-- What is set is set for the lines, one after the other. -/
theorem loadDrivers_entries (position : ℕ) (bytes : List ℕ) :
    (loadDrivers position bytes).1.map DriverSet.driverEntry = tokens 0x0A (cString bytes) ∧
      ∀ s ∈ (loadDrivers position bytes).1, s.driverId = s.driverEntry.takeWhile (· ≠ 0x3A) := by
  fun_induction loadDrivers position bytes with
  | case1 position bytes hcut =>
    rw [tokens_cutToken (by decide), hcut]
    exact ⟨rfl, by simp⟩
  | case2 position bytes t hcut dd passed r ih =>
    obtain ⟨hentries, hids⟩ := ih
    rw [tokens_cutToken (by decide), hcut]
    refine ⟨?_, fun s hs => ?_⟩
    · rw [List.map_cons, hentries]
    · rcases List.mem_cons.mp hs with rfl | hs
      · rfl
      · exact hids s hs

/-- A line with a colon, cut at it. -/
theorem splitAtColon_of_mem {line : List ℕ} (h : 0x3A ∈ line) :
    splitAtColon line = line.takeWhile (· ≠ 0x3A) ++ 0 :: (line.dropWhile (· ≠ 0x3A)).tail := by
  rw [splitAtColon, if_pos h]

/-- At the end of the string nothing more is done. -/
theorem loadDrivers_atEnd (position : ℕ) (h : AtEnd bytes) : loadDrivers position bytes = ([], bytes) := by
  have hcut : cutToken 0x0A bytes = none := h.cutToken (by decide)
  unfold loadDrivers
  split
  next => rfl
  next t hsome => exact absurd (hcut.symm.trans hsome) (by simp)

/-- Behind the id of such a line its path is left. -/
theorem loadDrivers_path (position : ℕ) (bytes before : List ℕ) (hbefore : before.length = position) :
    ∀ s ∈ (loadDrivers position bytes).1, 0x3A ∈ s.driverEntry →
      cString ((before ++ (loadDrivers position bytes).2).drop s.driverPath) = (s.driverEntry.dropWhile (· ≠ 0x3A)).tail := by
  fun_induction loadDrivers position bytes generalizing before with
  | case1 position bytes hcut => simp
  | case2 position bytes t hcut dd passed r ih =>
    have hof := cutToken_some hcut
    intro s hs hcolon
    rcases List.mem_cons.mp hs with rfl | hs
    · have hpath : ∀ b ∈ (t.name.dropWhile (· ≠ 0x3A)).tail, b ≠ 0 := fun b hb =>
        (hof.name b ((List.dropWhile_suffix _).mem (List.mem_of_mem_tail hb))).2
      -- the line ends at a `NUL`, which was there or took the place of its separator
      have hend : AtEnd ((if t.more then [0] else []) ++ r.2) := by
        cases hmore : t.more with
        | true => exact fun b hb => (Option.some.inj hb).symm
        | false =>
          have hrest : r = ([], t.rest) := loadDrivers_atEnd _ (hof.atEnd hmore)
          rw [hrest]
          exact hof.atEnd hmore
      have hsplit : before ++ (passed ++ r.2) = (before ++ (t.lead ++ (t.name.takeWhile (· ≠ 0x3A) ++ [0]))) ++
          ((t.name.dropWhile (· ≠ 0x3A)).tail ++ ((if t.more then [0] else []) ++ r.2)) := by
        have hpassed : passed = t.lead ++ splitAtColon t.name ++ if t.more then [0] else [] := rfl
        rw [hpassed, splitAtColon_of_mem hcolon]
        simp only [List.append_assoc, List.cons_append, List.nil_append]
      have hlength : dd + 1 = (before ++ (t.lead ++ (t.name.takeWhile (· ≠ 0x3A) ++ [0]))).length := by
        have hdd : dd = position + t.lead.length + (t.name.takeWhile (· ≠ 0x3A)).length := rfl
        simp only [List.length_append, List.length_cons, List.length_nil]
        omega
      dsimp only
      rw [hsplit, hlength, List.drop_left, cString_append hpath, hend.cString, List.append_nil]
    · have hrest := ih (before ++ passed) (by rw [List.length_append, hbefore]) s hs hcolon
      rwa [List.append_assoc] at hrest

/-- The string of the buffer is that of the contents. -/
theorem cString_driverBuffer (contents beyond : List ℕ) : cString (driverBuffer contents beyond) = cString contents := by
  unfold driverBuffer
  induction contents with
  | nil => rfl
  | cons b contents ih =>
    unfold cString at ih ⊢
    rw [List.cons_append, List.takeWhile_cons, List.takeWhile_cons, ih]

/-- Where every line of the string has a colon, the table says what the string says. -/
theorem tableGet_of_colons (hcolons : ∀ s ∈ (loadDrivers 0 (driverBuffer contents beyond)).1, 0x3A ∈ s.driverEntry)
    (id : List ℕ) : tableGet contents beyond id = configuredPath (cString contents) id := by
  obtain ⟨hentries, hids⟩ := loadDrivers_entries 0 (driverBuffer contents beyond)
  have hpaths := loadDrivers_path 0 (driverBuffer contents beyond) [] rfl
  have hlines : (tokens 0x0A (cString contents)).filter (fun line => 0x3A ∈ line) =
      (loadDrivers 0 (driverBuffer contents beyond)).1.map DriverSet.driverEntry := by
    rw [← cString_driverBuffer contents beyond, ← hentries, List.filter_eq_self]
    intro line hline
    obtain ⟨s, hs, rfl⟩ := List.mem_map.mp hline
    exact decide_eq_true (hcolons s hs)
  unfold tableGet configuredPath textAt
  rw [hlines, ← List.map_reverse, List.find?_map, Option.map_map]
  have hsame : ∀ s ∈ (loadDrivers 0 (driverBuffer contents beyond)).1.reverse, decide (s.driverId = id) =
      ((fun line : List ℕ => decide (line.takeWhile (· ≠ 0x3A) = id)) ∘ DriverSet.driverEntry) s := by
    intro s hs
    rw [Function.comp_apply, hids s (List.mem_reverse.mp hs)]
  rw [List.find?_congr hsame]
  cases hfound : (loadDrivers 0 (driverBuffer contents beyond)).1.reverse.find?
      ((fun line : List ℕ => decide (line.takeWhile (· ≠ 0x3A) = id)) ∘ DriverSet.driverEntry) with
  | none => rfl
  | some s =>
    have hs := List.mem_reverse.mp (List.mem_of_find?_eq_some hfound)
    have hpath := hpaths s hs (hcolons s hs)
    rw [List.nil_append] at hpath
    exact congrArg some hpath

/-- Loading does what it is for exactly if every line up to the first `NUL` that is not empty has a colon, and the file says
nothing else behind that `NUL`. -/
theorem driversLoaded_iff (contents beyond : List ℕ) : DriversLoaded contents beyond ↔
    (∀ line ∈ tokens 0x0A (cString contents), 0x3A ∈ line) ∧
      ∀ id, configuredPath (cString contents) id = configuredPath contents id := by
  have hentries := (loadDrivers_entries 0 (driverBuffer contents beyond)).1
  rw [cString_driverBuffer] at hentries
  have hcolons : (∀ line ∈ tokens 0x0A (cString contents), 0x3A ∈ line) ↔
      ∀ s ∈ (loadDrivers 0 (driverBuffer contents beyond)).1, 0x3A ∈ s.driverEntry := by
    rw [← hentries]
    exact List.forall_mem_map
  rw [hcolons]
  constructor
  · rintro ⟨htable, hset⟩
    exact ⟨hset, fun id => (tableGet_of_colons hset id).symm.trans (htable id)⟩
  · rintro ⟨hset, hcut⟩
    exact ⟨fun id => (tableGet_of_colons hset id).trans (hcut id), hset⟩

/-- The line `a` alone maps its id to what is behind the buffer. -/
theorem driversLoaded_colonless : ¬ DriversLoaded [0x61] [0x78, 0] ∧ tableGet [0x61] [0x78, 0] [0x61] = some [0x78] := by
  have hload : loadDrivers 0 (driverBuffer [0x61] [0x78, 0]) = ([⟨[0x61], [0x61], 2⟩], [0x61, 0, 0x78, 0]) := by
    simp [loadDrivers, driverBuffer, cutToken, inToken, splitAtColon]
  constructor
  · intro hloaded
    have hcolon := hloaded.colons ⟨[0x61], [0x61], 2⟩ (by rw [hload]; exact List.mem_cons_self)
    exact absurd hcolon (by decide)
  · unfold tableGet textAt
    rw [hload]
    rfl

end Cthulhu
