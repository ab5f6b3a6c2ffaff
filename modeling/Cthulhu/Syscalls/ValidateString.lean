import Cthulhu.Loader.Copy
import Cthulhu.Syscalls.Classify

/-!
# Validation of strings

`validate_string` goes through the string a page at a time with two bounds, `addr` and `nextb`,
and moves both by a page. It checks the page of `addr` and looks for a NUL between the bounds.

A kernel access to a page that is not present never completes: the handler of the kernel's own
page faults returns to the access that faulted. Such a call has no value here, as one that loops.
-/

namespace Cthulhu

open Lib

/-- What `validate_string` returns: the value, whether the continuation is set, the addresses of the
characters it has looked at, and the machine. -/
structure StringCheck where
  value : Bool
  waits : Bool
  examined : List ℕ
  machine : Machine

namespace Kernel

variable (s : Kernel)

/-- The character at an address of the active space, or `none` for an access that faults. -/
def readChar (a : ℕ) : Option ℕ := if canonical a then s.userByte s.machine.activePage a else none

/-- The inner loop of `validate_string` from index `i` on: whether there is a NUL, and the addresses
looked at; or `none` for an access that faults. -/
def scanChars (addr : ℕ) : ℕ → ℕ → Option (Bool × List ℕ)
  | 0, _ => some (false, [])
  | n + 1, i =>
    match s.readChar (add64 addr i) with
    | none => none
    | some 0 => some (true, [add64 addr i])
    | some _ => (scanChars addr n (i + 1)).map fun r => (r.1, add64 addr i :: r.2)

/-- The loop of `validate_string`, with the number of entries its buffer has in use. -/
def validateStringLoop : ℕ → ℕ → ℕ → ℕ → List ℕ → Option StringCheck
  | 0, _, _, _, _ => none
  | fuel + 1, addr, nextb, found, examined =>
    let check := s.machine.checkMemStateInto (fuel + 2) addr (sub64 nextb addr) maxCheckedElements found
    match check.2 with
    | none => none
    | some state =>
      if state ≠ .okay then
        let r := s.machine.repairMemory state (check.1.stores.map Prod.fst)
        some ⟨r.1, r.2.1, examined, r.2.2⟩
      else
        match s.scanChars addr (sub64 nextb addr) 0 with
        | none => none
        | some (true, seen) => some ⟨true, false, examined ++ seen, s.machine⟩
        | some (false, seen) =>
          validateStringLoop fuel (add64 addr 0x1000) (add64 nextb 0x1000) check.1.used (examined ++ seen)

/-- `validate_string`; no value while it has not returned. -/
def validateString (fuel string : ℕ) : Option StringCheck :=
  s.validateStringLoop fuel string (alignUp string 0x1000) 0 []

variable (string : ℕ)

/-- There is a NUL at offset `k`, and the bytes up to it are on present pages. -/
def NulAt (k : ℕ) : Prop :=
  s.readChar (add64 string k) = some 0 ∧ ∀ j ≤ k, (s.readChar (add64 string j)).isSome = true

/-- The first page of the string that is not present is not waiting for its content. -/
def Settled : Prop :=
  ∀ n, (∀ i < n, (s.readChar (nthPage string i)).isSome = true) →
    s.machine.pageClass (nthPage string n) = .present ∨ s.machine.pageClass (nthPage string n) = .missing

/-- What validation of a string owes: it returns; where no page waits it returns true exactly for a
string that ends on present pages; and it has then looked at every character up to the first NUL. -/
structure ValidatesString : Prop where
  terminates : ∃ fuel r, s.validateString fuel string = some r
  decides : s.Settled string →
    ((∃ fuel r, s.validateString fuel string = some r ∧ r.value = true) ↔ ∃ k, s.NulAt string k)
  examines : ∀ fuel r, s.validateString fuel string = some r → ∀ k, s.NulAt string k →
    (∀ i < k, ¬ s.NulAt string i) → ∀ j ≤ k, add64 string j ∈ r.examined

/-- The number of bytes from the string to the end of its page. -/
def chunkSize : ℕ := sub64 (alignUp string 0x1000) string

/-- The NUL is on the first page. -/
def EndsOnFirstPage : Prop := ∃ k < chunkSize string, s.NulAt string k

/-- Page `n` of the string is missing and not the last of the address space, and the characters before
it are on present pages and not NUL. -/
def EndsMissing (n : ℕ) : Prop :=
  (∀ j, string % 0x1000 + j < 0x1000 * n → ∃ b, s.readChar (add64 string j) = some (b + 1)) ∧
    s.machine.pageClass (nthPage string n) = .missing ∧ nthPage string n + chunkSize string < 2 ^ 64

end Kernel

section Chunks

variable {s : Kernel} {string : ℕ}

/-- The first chunk is the rest of the string's page, and empty for a string at a page boundary. -/
theorem chunkSize_eq (hstring : string < 2 ^ 64) :
    Kernel.chunkSize string = if string % 0x1000 = 0 then 0 else 0x1000 - string % 0x1000 := by
  unfold Kernel.chunkSize alignUp sub64 alignDown add64
  split
  · simp
  · split <;> omega

/-- The upper bound is a chunk above the lower one. -/
theorem alignUp_eq (hstring : string < 2 ^ 64) : alignUp string 0x1000 = add64 string (Kernel.chunkSize string) := by
  rw [chunkSize_eq hstring]
  unfold alignUp alignDown add64
  split
  · omega
  · omega

/-- The size of a chunk is what the two bounds are apart. -/
theorem sub64_add64 {a d : ℕ} (ha : a < 2 ^ 64) (hd : d < 2 ^ 64) : sub64 (add64 a d) a = d := by
  unfold sub64 add64
  split <;> omega

/-- Both bounds move by a page. -/
theorem add64_right_comm (a b c : ℕ) : add64 (add64 a b) c = add64 (add64 a c) b := by
  unfold add64
  omega

/-- Whether an address can be read depends on its page only. -/
theorem Kernel.readChar_isSome_congr {a b : ℕ} (h : a / 0x1000 = b / 0x1000) :
    (s.readChar a).isSome = (s.readChar b).isSome := by
  have hcanonical : canonical a = canonical b := by
    unfold canonical
    rw [Bool.eq_iff_iff]
    simp only [Bool.or_eq_true, decide_eq_true_eq]
    omega
  have hentry : s.machine.pageEntry a s.machine.activePage = s.machine.pageEntry b s.machine.activePage := by
    unfold Machine.pageEntry
    rw [Machine.getPage_congr h]
  unfold Kernel.readChar Kernel.userByte
  rw [hcanonical, hentry]
  cases canonical b with
  | false => rfl
  | true =>
    dsimp only
    cases present (s.machine.pageEntry b s.machine.activePage) with
    | false => rfl
    | true => rfl

/-- An address that can be read is on a present page. -/
theorem Kernel.pageClass_of_readChar {a : ℕ} (h : (s.readChar a).isSome = true) : s.machine.pageClass a = .present := by
  have hpresent : present (s.machine.pageEntry a s.machine.activePage) = true := by
    unfold Kernel.readChar Kernel.userByte at h
    split at h
    · dsimp only at h
      split at h
      · assumption
      · cases h
    · cases h
  rw [Machine.pageClass_eq, entryClass, if_pos hpresent]

/-- The chunk that a round looks at lies on one page. -/
theorem chunk_page (hstring : string < 2 ^ 64) (n : ℕ) {j : ℕ} (hj : j < Kernel.chunkSize string) :
    add64 (nthPage string n) j = nthPage string n + j ∧ (nthPage string n + j) / 0x1000 = nthPage string n / 0x1000 := by
  rw [chunkSize_eq hstring] at hj
  have hpage := nthPage_eq hstring n
  split at hj
  · cases hj
  · have hmod : nthPage string n % 0x1000 = string % 0x1000 := by omega
    have hlt : nthPage string n < 2 ^ 64 := by omega
    rw [add64_of_lt (by omega)]
    exact ⟨rfl, by omega⟩

/-- A character of a chunk is one of the string. -/
theorem chunk_offset (hstring : string < 2 ^ 64) (n j : ℕ) : add64 (nthPage string n) j = add64 string (0x1000 * n + j) := by
  rw [nthPage_eq hstring]
  unfold add64
  omega

end Chunks

section Check

variable {m : Machine} {string : ℕ}

/-- A round of the check of one page returns on a missing page only. -/
theorem checkPage_first (addr found : ℕ) : (m.checkPage maxCheckedElements addr ⟨.einvalid, found, []⟩).2 =
    if m.pageClass addr = .missing then some .notpresent else none := by
  rw [checkPage_eq]
  cases hclass : m.pageClass addr with
  | missing => rfl
  | present => rfl
  | idle => rfl
  | swapped => simp [CheckState.store]
  | onDemand => simp [CheckState.store]

/-- The check of one chunk fails on a missing page, except on the last page of the address space, whose
end wraps. -/
theorem checkChunk (hstring : string < 2 ^ 64) (fuel n found : ℕ) :
    (m.checkMemStateInto (fuel + 2) (nthPage string n) (Kernel.chunkSize string) maxCheckedElements found).2 =
      if (0 < Kernel.chunkSize string ∧ nthPage string n + Kernel.chunkSize string < 2 ^ 64) ∧
        m.pageClass (nthPage string n) = .missing then some .notpresent else some .okay := by
  have hpage := nthPage_eq hstring n
  have hsize := chunkSize_eq hstring
  have hlt : nthPage string n < 2 ^ 64 := by omega
  have hmod : nthPage string n % 0x1000 = string % 0x1000 := by omega
  have hround := checkPage_first (m := m) (nthPage string n) found
  unfold Machine.checkMemStateInto
  rw [Machine.checkPages]
  by_cases hinside : 0 < Kernel.chunkSize string ∧ nthPage string n + Kernel.chunkSize string < 2 ^ 64
  · rw [add64_of_lt hinside.2, if_pos (by omega)]
    generalize m.checkPage maxCheckedElements (nthPage string n) ⟨.einvalid, found, []⟩ = r at hround
    obtain ⟨after, result⟩ := r
    by_cases hmissing : m.pageClass (nthPage string n) = .missing
    · obtain rfl : result = some .notpresent := by rw [if_pos hmissing] at hround; exact hround
      rw [if_pos ⟨hinside, hmissing⟩]
    · obtain rfl : result = none := by rw [if_neg hmissing] at hround; exact hround
      have hpast : ¬ add64 (nthPage string n) 0x1000 < nthPage string n + Kernel.chunkSize string := by
        split at hsize
        · omega
        · rw [add64_of_lt (by omega)]
          omega
      rw [if_neg fun h => hmissing h.2]
      dsimp only
      rw [Machine.checkPages, if_neg hpast]
  · have hwraps : ¬ nthPage string n < add64 (nthPage string n) (Kernel.chunkSize string) := by
      unfold add64
      split at hsize
      · omega
      · omega
    rw [if_neg hwraps, if_neg fun h => hinside h.1]

end Check

section Scan

variable {s : Kernel} {addr : ℕ}

/-- Characters that are not NUL are looked at one after the other. -/
theorem scanChars_append {k i : ℕ} (h : ∀ j < k, ∃ b, s.readChar (add64 addr (i + j)) = some (b + 1)) (n : ℕ) :
    s.scanChars addr (k + n) i =
      (s.scanChars addr n (i + k)).map fun r => (r.1, (List.range' i k).map (add64 addr) ++ r.2) := by
  induction k generalizing i with
  | zero =>
    rw [Nat.zero_add, Nat.add_zero]
    exact Option.map_id'.symm
  | succ k ih =>
    obtain ⟨b, hb⟩ := h 0 (Nat.succ_pos k)
    have hshift (j : ℕ) : i + 1 + j = i + (j + 1) := by omega
    have hrest := ih (i := i + 1) fun j hj => by rw [hshift]; exact h (j + 1) (Nat.succ_lt_succ hj)
    rw [Nat.add_zero] at hb
    rw [Nat.add_right_comm, Kernel.scanChars, hb, hrest, hshift, Option.map_map]
    rfl

/-- The characters of a chunk that has no NUL are all looked at. -/
theorem scanChars_passed {n : ℕ} (h : ∀ j < n, ∃ b, s.readChar (add64 addr j) = some (b + 1)) :
    s.scanChars addr n 0 = some (false, (List.range' 0 n).map (add64 addr)) := by
  have happend : s.scanChars addr (n + 0) 0 = _ :=
    scanChars_append (fun j hj => by rw [Nat.zero_add]; exact h j hj) 0
  rw [Nat.add_zero] at happend
  rw [happend, Kernel.scanChars, Option.map_some, List.append_nil]

/-- The first NUL of a chunk ends the scan, and so does the first character that cannot be read. -/
theorem scanChars_stopped {n k : ℕ} (h : ∀ j < k, ∃ b, s.readChar (add64 addr j) = some (b + 1)) (hk : k < n) :
    (s.readChar (add64 addr k) = some 0 →
        s.scanChars addr n 0 = some (true, (List.range' 0 (k + 1)).map (add64 addr))) ∧
      (s.readChar (add64 addr k) = none → s.scanChars addr n 0 = none) := by
  obtain ⟨n, rfl⟩ : ∃ n', n = k + (n' + 1) := ⟨n - k - 1, by omega⟩
  have happend : s.scanChars addr (k + (n + 1)) 0 = _ :=
    scanChars_append (fun j hj => by rw [Nat.zero_add]; exact h j hj) (n + 1)
  rw [Nat.zero_add] at happend
  rw [happend, Kernel.scanChars]
  constructor
  · intro hnul
    rw [hnul, List.range'_concat, List.map_append, Nat.zero_add, Nat.one_mul]
    rfl
  · intro hnone
    rw [hnone]
    rfl

end Scan

section Rounds

variable {s : Kernel} {string : ℕ}

/-- Round `n` finds no NUL in its chunk, all of which can be read. -/
def Kernel.Passes (s : Kernel) (string n : ℕ) : Prop :=
  ∀ j < Kernel.chunkSize string, ∃ b, s.readChar (add64 (nthPage string n) j) = some (b + 1)

/-- The check lets the chunk of round `n` be read. -/
def Kernel.Allowed (s : Kernel) (string n : ℕ) : Prop :=
  ¬ ((0 < Kernel.chunkSize string ∧ nthPage string n + Kernel.chunkSize string < 2 ^ 64) ∧
    s.machine.pageClass (nthPage string n) = .missing)

/-- The loop at the start of a round. -/
def Kernel.atRound (s : Kernel) (string n fuel found : ℕ) (examined : List ℕ) : Option StringCheck :=
  s.validateStringLoop fuel (nthPage string n) (add64 (nthPage string n) (Kernel.chunkSize string)) found examined

/-- A round whose page is missing returns false. -/
theorem atRound_refused (hstring : string < 2 ^ 64) {n : ℕ} (h : ¬ s.Allowed string n) (fuel found : ℕ)
    (examined : List ℕ) : s.atRound string n (fuel + 1) found examined = some ⟨false, false, examined, s.machine⟩ := by
  have hpage := nthPage_eq hstring n
  have hsize := chunkSize_eq hstring
  have hcheck := checkChunk (m := s.machine) hstring fuel n found
  rw [if_pos (not_not.mp h)] at hcheck
  unfold Kernel.atRound
  rw [Kernel.validateStringLoop, sub64_add64 (by omega) (by split at hsize <;> omega)]
  dsimp only
  rw [hcheck]
  rfl

/-- A round whose page is not missing looks at its chunk. -/
theorem atRound_allowed (hstring : string < 2 ^ 64) {n : ℕ} (h : s.Allowed string n) (fuel found : ℕ)
    (examined : List ℕ) : ∃ found', s.atRound string n (fuel + 1) found examined =
      match s.scanChars (nthPage string n) (Kernel.chunkSize string) 0 with
      | none => none
      | some (true, seen) => some ⟨true, false, examined ++ seen, s.machine⟩
      | some (false, seen) => s.atRound string (n + 1) fuel found' (examined ++ seen) := by
  have hpage := nthPage_eq hstring n
  have hsize := chunkSize_eq hstring
  have hcheck := checkChunk (m := s.machine) hstring fuel n found
  rw [if_neg h] at hcheck
  unfold Kernel.atRound
  rw [Kernel.validateStringLoop, sub64_add64 (by omega) (by split at hsize <;> omega)]
  dsimp only
  rw [hcheck, add64_right_comm]
  exact ⟨_, rfl⟩

/-- A page of which something can be read is not refused. -/
theorem Kernel.Passes.allowed (hstring : string < 2 ^ 64) {n : ℕ} (h : s.Passes string n) : s.Allowed string n := by
  rintro ⟨⟨hpos, -⟩, hmissing⟩
  obtain ⟨b, hb⟩ := h 0 hpos
  have hsome : (s.readChar (add64 (nthPage string n) 0)).isSome = true := by rw [hb]; rfl
  rw [(chunk_page hstring n hpos).1, Nat.add_zero] at hsome
  exact absurd ((Kernel.pageClass_of_readChar hsome).symm.trans hmissing) (by decide)

/-- The addresses that the rounds look at are never those of a page boundary. -/
theorem chunk_not_boundary (hstring : string < 2 ^ 64) (n : ℕ) {k : ℕ} (hk : k ≤ Kernel.chunkSize string) {a : ℕ}
    (ha : a ∈ (List.range' 0 k).map (add64 (nthPage string n))) : a % 0x1000 ≠ 0 := by
  obtain ⟨j, hj, rfl⟩ := List.mem_map.mp ha
  have hlt : j < Kernel.chunkSize string := by
    rw [List.mem_range'_1] at hj
    omega
  have hpage := nthPage_eq hstring n
  have hsize := chunkSize_eq hstring
  rw [(chunk_page hstring n hlt).1]
  split at hsize
  · omega
  · omega

/-- The rounds that find nothing are made one after the other. -/
theorem validateString_passed (hstring : string < 2 ^ 64) {n : ℕ} (h : ∀ i < n, s.Passes string i) :
    ∃ examined, (∀ a ∈ examined, a % 0x1000 ≠ 0) ∧ (n = 0 → examined = []) ∧
      ∀ fuel, ∃ found, s.validateString (n + fuel) string = s.atRound string n fuel found examined := by
  induction n with
  | zero =>
    refine ⟨[], by simp, fun _ => rfl, fun fuel => ⟨0, ?_⟩⟩
    rw [Nat.zero_add, Kernel.validateString, alignUp_eq hstring]
    rfl
  | succ n ih =>
    obtain ⟨examined, hexamined, -, hloop⟩ := ih fun i hi => h i (Nat.lt_succ_of_lt hi)
    have hpasses := h n (Nat.lt_succ_self n)
    refine ⟨examined ++ (List.range' 0 (Kernel.chunkSize string)).map (add64 (nthPage string n)), fun a ha => ?_,
      fun hzero => absurd hzero (Nat.succ_ne_zero n), fun fuel => ?_⟩
    · rcases List.mem_append.mp ha with hold | hnew
      · exact hexamined a hold
      · exact chunk_not_boundary hstring n (Nat.le_refl _) hnew
    · obtain ⟨found, heq⟩ := hloop (fuel + 1)
      obtain ⟨found', hround⟩ := atRound_allowed hstring (hpasses.allowed hstring) fuel found examined
      rw [scanChars_passed hpasses] at hround
      exact ⟨found', by rw [Nat.add_assoc, Nat.add_comm 1 fuel, heq, hround]⟩

/-- A call that has not made its rounds has no value. -/
theorem validateString_short (hstring : string < 2 ^ 64) {n fuel : ℕ} (h : ∀ i < n, s.Passes string i)
    (hfuel : fuel ≤ n) : s.validateString fuel string = none := by
  obtain ⟨examined, -, -, hloop⟩ := validateString_passed (n := fuel) hstring fun i hi => h i (by omega)
  obtain ⟨found, heq⟩ := hloop 0
  exact heq

end Rounds

end Cthulhu
