import Cthulhu.Syscalls.ValidateString

/-!
# Where validation of a string ends

The rounds of `validate_string` look at the same part of every page, the one from the string's own
offset to the end. A string at a page boundary leaves it nothing to look at, and a string that goes
on to the next page has characters there that it skips.
-/

namespace Cthulhu

open Lib

section Offsets

variable {s : Kernel} {string : ℕ}

/-- The page that a character of the string is on. -/
theorem offset_page (hstring : string < 2 ^ 64) (j : ℕ) :
    add64 string j / 0x1000 = nthPage string ((string % 0x1000 + j) / 0x1000) / 0x1000 := by
  rw [nthPage_eq hstring]
  unfold add64
  omega

/-- A character can be read exactly when its page can. -/
theorem readChar_offset (hstring : string < 2 ^ 64) (j : ℕ) : (s.readChar (add64 string j)).isSome =
    (s.readChar (nthPage string ((string % 0x1000 + j) / 0x1000))).isSome :=
  Kernel.readChar_isSome_congr (offset_page hstring j)

/-- A page whose chunk passes can be read. -/
theorem Kernel.Passes.readable (hstring : string < 2 ^ 64) (hpos : 0 < Kernel.chunkSize string) {n : ℕ}
    (h : s.Passes string n) : (s.readChar (nthPage string n)).isSome = true := by
  obtain ⟨b, hb⟩ := h 0 hpos
  rw [(chunk_page hstring n hpos).1, Nat.add_zero] at hb
  rw [hb]
  rfl

/-- The characters on pages that pass can be read. -/
theorem readable_of_passes (hstring : string < 2 ^ 64) (hpos : 0 < Kernel.chunkSize string) {n j : ℕ}
    (h : ∀ i < n, s.Passes string i) (hj : string % 0x1000 + j < 0x1000 * n) :
    (s.readChar (add64 string j)).isSome = true := by
  rw [readChar_offset hstring]
  exact (h _ (by omega)).readable hstring hpos

/-- A chunk that does not pass has a first character that is NUL or cannot be read. -/
theorem first_stop {n : ℕ} (h : ¬ s.Passes string n) :
    ∃ k < Kernel.chunkSize string, (∀ j < k, ∃ b, s.readChar (add64 (nthPage string n) j) = some (b + 1)) ∧
      (s.readChar (add64 (nthPage string n) k) = none ∨ s.readChar (add64 (nthPage string n) k) = some 0) := by
  classical
  have hstops : ∃ k, ¬ (k < Kernel.chunkSize string → ∃ b, s.readChar (add64 (nthPage string n) k) = some (b + 1)) :=
    not_forall.mp h
  obtain ⟨hk, hstop⟩ := Classical.not_imp.mp (Nat.find_spec hstops)
  refine ⟨Nat.find hstops, hk, fun j hj => ?_, ?_⟩
  · exact not_not.mp (Nat.find_min hstops hj) (Nat.lt_trans hj hk)
  · cases hread : s.readChar (add64 (nthPage string n) (Nat.find hstops)) with
    | none => exact Or.inl rfl
    | some b =>
      cases b with
      | zero => exact Or.inr rfl
      | succ b => exact absurd ⟨b, hread⟩ hstop

/-- All rounds pass, or there is a first one that does not. -/
theorem passes_or_first (s : Kernel) (string : ℕ) :
    (∀ n, s.Passes string n) ∨ ∃ n, (∀ i < n, s.Passes string i) ∧ ¬ s.Passes string n := by
  classical
  by_cases hall : ∀ n, s.Passes string n
  · exact Or.inl hall
  · have hstops : ∃ n, ¬ s.Passes string n := not_forall.mp hall
    exact Or.inr ⟨Nat.find hstops, fun i hi => not_not.mp (Nat.find_min hstops hi), Nat.find_spec hstops⟩

end Offsets

section Outcomes

variable {s : Kernel} {string : ℕ}

/-- Where a round has a value whatever the fuel, that is the value of the call. -/
theorem validateString_ends (hstring : string < 2 ^ 64) {n : ℕ} (h : ∀ i < n, s.Passes string i)
    {R : List ℕ → Option StringCheck}
    (hround : ∀ fuel found examined, s.atRound string n (fuel + 1) found examined = R examined) :
    ∃ examined, (∀ a ∈ examined, a % 0x1000 ≠ 0) ∧ (n = 0 → examined = []) ∧
      ∀ fuel, s.validateString fuel string = if n < fuel then R examined else none := by
  obtain ⟨examined, hexamined, hfirst, hloop⟩ := validateString_passed hstring h
  refine ⟨examined, hexamined, hfirst, fun fuel => ?_⟩
  split
  next hlong =>
    obtain ⟨found, heq⟩ := hloop (fuel - n - 1 + 1)
    rw [show n + (fuel - n - 1 + 1) = fuel by omega] at heq
    rw [heq, hround]
  next hshort => exact validateString_short hstring h (by omega)

/-- The value of the round that looks at the first NUL, or at a character that cannot be read. -/
theorem atRound_stopped (hstring : string < 2 ^ 64) {n k : ℕ} (hallowed : s.Allowed string n)
    (hk : k < Kernel.chunkSize string)
    (hbefore : ∀ j < k, ∃ b, s.readChar (add64 (nthPage string n) j) = some (b + 1)) :
    (s.readChar (add64 (nthPage string n) k) = some 0 → ∀ fuel found examined,
      s.atRound string n (fuel + 1) found examined = some ⟨true, false,
        examined ++ (List.range' 0 (k + 1)).map (add64 (nthPage string n)), s.machine⟩) ∧
    (s.readChar (add64 (nthPage string n) k) = none → ∀ fuel found examined,
      s.atRound string n (fuel + 1) found examined = none) := by
  obtain ⟨hfound, hfault⟩ := scanChars_stopped hbefore hk
  constructor
  · intro hnul fuel found examined
    obtain ⟨found', hround⟩ := atRound_allowed hstring hallowed fuel found examined
    rw [hround, hfound hnul]
  · intro hnone fuel found examined
    obtain ⟨found', hround⟩ := atRound_allowed hstring hallowed fuel found examined
    rw [hround, hfault hnone]

end Outcomes

section Condition

variable {s : Kernel} {string : ℕ}

/-- The size of the chunks is positive exactly for a string that is not at a page boundary. -/
theorem chunkSize_pos_iff (hstring : string < 2 ^ 64) : 0 < Kernel.chunkSize string ↔ string % 0x1000 ≠ 0 := by
  have hsize := chunkSize_eq hstring
  split at hsize
  · omega
  · omega

/-- A round that refuses a page means that the string runs into a missing page. -/
theorem endsMissing_of_validates (hstring : string < 2 ^ 64) (h : s.ValidatesString string) {n : ℕ}
    (hpasses : ∀ i < n, s.Passes string i) (hrefused : ¬ s.Allowed string n) :
    string % 0x1000 ≠ 0 ∧ s.EndsMissing string n := by
  obtain ⟨⟨hpos, hinside⟩, hmissing⟩ := not_not.mp hrefused
  have hunreadable : ¬ (s.readChar (nthPage string n)).isSome = true := fun hsome =>
    absurd ((Kernel.pageClass_of_readChar hsome).symm.trans hmissing) (by decide)
  have hsettled : s.Settled string := by
    intro i hi
    rcases Nat.lt_trichotomy i n with hlt | rfl | hgt
    · exact Or.inl (Kernel.pageClass_of_readChar ((hpasses i hlt).readable hstring hpos))
    · exact Or.inr hmissing
    · exact absurd (hi n hgt) hunreadable
  obtain ⟨examined, -, -, hvalue⟩ := validateString_ends hstring hpasses (atRound_refused hstring hrefused)
  have hnonul : ¬ ∃ k, s.NulAt string k := by
    intro hnul
    obtain ⟨fuel, r, hr, htrue⟩ := (h.decides hsettled).mpr hnul
    rw [hvalue fuel] at hr
    split at hr
    · cases hr
      cases htrue
    · cases hr
  refine ⟨(chunkSize_pos_iff hstring).mp hpos, fun j hj => ?_, hmissing, hinside⟩
  have hreadable (i : ℕ) (hi : i ≤ j) : (s.readChar (add64 string i)).isSome = true :=
    readable_of_passes hstring hpos hpasses (by omega)
  obtain ⟨b, hb⟩ := Option.isSome_iff_exists.mp (hreadable j (Nat.le_refl j))
  cases b with
  | zero => exact absurd ⟨j, hb, hreadable⟩ hnonul
  | succ b => exact ⟨b, hb⟩

/-- A NUL that a later round finds is behind characters that were skipped. -/
theorem found_on_first (hstring : string < 2 ^ 64) (h : s.ValidatesString string) {n k : ℕ}
    (hpasses : ∀ i < n, s.Passes string i) (hallowed : s.Allowed string n) (hk : k < Kernel.chunkSize string)
    (hbefore : ∀ j < k, ∃ b, s.readChar (add64 (nthPage string n) j) = some (b + 1))
    (hnul : s.readChar (add64 (nthPage string n) k) = some 0) : s.EndsOnFirstPage string := by
  have hpos : 0 < Kernel.chunkSize string := by omega
  have hpage : (s.readChar (nthPage string n)).isSome = true := by
    rw [← Kernel.readChar_isSome_congr (chunk_page hstring n hk).2, ← (chunk_page hstring n hk).1, hnul]
    rfl
  have hsize := chunkSize_eq hstring
  rw [if_neg ((chunkSize_pos_iff hstring).mp hpos)] at hsize
  rw [chunk_offset hstring] at hnul
  have hat : s.NulAt string (0x1000 * n + k) := by
    refine ⟨hnul, fun j hj => ?_⟩
    rw [readChar_offset hstring]
    rcases Nat.lt_or_ge ((string % 0x1000 + j) / 0x1000) n with hlt | hge
    · exact (hpasses _ hlt).readable hstring hpos
    · rwa [show (string % 0x1000 + j) / 0x1000 = n by omega]
  rcases Nat.eq_zero_or_pos n with rfl | hlater
  · exact ⟨k, hk, by rwa [Nat.mul_zero, Nat.zero_add] at hat⟩
  · classical
    have hexists : ∃ k, s.NulAt string k := ⟨_, hat⟩
    obtain ⟨examined, hexamined, -, hvalue⟩ :=
      validateString_ends hstring hpasses ((atRound_stopped hstring hallowed hk hbefore).1 (by
        rw [chunk_offset hstring]
        exact hnul))
    have hresult := hvalue (n + 1)
    rw [if_pos (Nat.lt_succ_self n)] at hresult
    -- the first character of the second page is before the NUL
    have hfirst : Kernel.chunkSize string ≤ Nat.find hexists := by
      refine Nat.le_of_not_lt fun hlt => ?_
      obtain ⟨b, hb⟩ := hpasses 0 hlater _ hlt
      exact absurd ((Nat.find_spec hexists).1.symm.trans hb) (by simp)
    have hseen := h.examines (n + 1) _ hresult _ (Nat.find_spec hexists) (fun i hi => Nat.find_min hexists hi)
      (Kernel.chunkSize string) hfirst
    have hboundary : add64 string (Kernel.chunkSize string) % 0x1000 = 0 := by
      unfold add64
      omega
    rcases List.mem_append.mp hseen with hold | hnew
    · exact absurd hboundary (hexamined _ hold)
    · exact absurd hboundary (chunk_not_boundary hstring n (by omega) hnew)

/-- A string that ends on its first page is validated. -/
theorem validates_of_first (hstring : string < 2 ^ 64) (h : s.EndsOnFirstPage string) : s.ValidatesString string := by
  classical
  obtain ⟨k, hk, hat⟩ := h
  have hexists : ∃ k, s.NulAt string k := ⟨k, hat⟩
  have hle : Nat.find hexists ≤ k := Nat.find_le hat
  have hlt : Nat.find hexists < Kernel.chunkSize string := Nat.lt_of_le_of_lt hle hk
  have hallowed : s.Allowed string 0 := by
    rintro ⟨-, hmissing⟩
    have hsome := hat.2 0 (Nat.zero_le k)
    rw [show add64 string 0 = nthPage string 0 from Nat.mod_eq_of_lt hstring] at hsome
    exact absurd ((Kernel.pageClass_of_readChar hsome).symm.trans hmissing) (by decide)
  have hbefore : ∀ j < Nat.find hexists, ∃ b, s.readChar (add64 (nthPage string 0) j) = some (b + 1) := by
    intro j hj
    obtain ⟨b, hb⟩ := Option.isSome_iff_exists.mp (hat.2 j (by omega))
    cases b with
    | zero => exact absurd ⟨hb, fun i hi => hat.2 i (by omega)⟩ (Nat.find_min hexists hj)
    | succ b => exact ⟨b, hb⟩
  obtain ⟨examined, -, hnone, hvalue⟩ := validateString_ends (n := 0) hstring (fun i hi => absurd hi (Nat.not_lt_zero i))
    ((atRound_stopped hstring hallowed hlt hbefore).1 (Nat.find_spec hexists).1)
  rw [hnone rfl, List.nil_append] at hvalue
  refine ⟨⟨1, _, hvalue 1⟩, fun _ => ⟨fun _ => hexists, fun _ => ⟨1, _, hvalue 1, rfl⟩⟩, ?_⟩
  intro fuel r hr k' hk' hfirst j hj
  obtain rfl : k' = Nat.find hexists := by
    rcases Nat.lt_trichotomy k' (Nat.find hexists) with hlow | heq | hhigh
    · exact absurd hk' (Nat.find_min hexists hlow)
    · exact heq
    · exact absurd (Nat.find_spec hexists) (hfirst _ hhigh)
  rw [hvalue fuel] at hr
  split at hr
  · cases hr
    exact List.mem_map_of_mem (List.mem_range'_1.mpr ⟨Nat.zero_le j, by omega⟩)
  · cases hr

/-- A string that runs into a missing page is validated, if nothing of it was skipped for a NUL. -/
theorem validates_of_missing (hstring : string < 2 ^ 64) (haligned : string % 0x1000 ≠ 0) {n : ℕ}
    (h : s.EndsMissing string n) : s.ValidatesString string := by
  obtain ⟨hchars, hmissing, hinside⟩ := h
  have hpos := (chunkSize_pos_iff hstring).mpr haligned
  have hsize := chunkSize_eq hstring
  rw [if_neg haligned] at hsize
  have hpasses : ∀ i < n, s.Passes string i := by
    intro i hi j hj
    rw [chunk_offset hstring]
    exact hchars _ (by omega)
  have hrefused : ¬ s.Allowed string n := not_not.mpr ⟨⟨hpos, hinside⟩, hmissing⟩
  have hnonul (k : ℕ) : ¬ s.NulAt string k := by
    rintro ⟨hnul, hreadable⟩
    rcases Nat.lt_or_ge (string % 0x1000 + k) (0x1000 * n) with hlt | hge
    · obtain ⟨b, hb⟩ := hchars k hlt
      exact absurd (hnul.symm.trans hb) (by simp)
    · -- the first character of the string on the missing page
      have hsome := hreadable (0x1000 * n - string % 0x1000) (by omega)
      rw [readChar_offset hstring, show (string % 0x1000 + (0x1000 * n - string % 0x1000)) / 0x1000 = n by omega] at hsome
      exact absurd ((Kernel.pageClass_of_readChar hsome).symm.trans hmissing) (by decide)
  obtain ⟨examined, -, -, hvalue⟩ := validateString_ends hstring hpasses (atRound_refused hstring hrefused)
  have hresult := hvalue (n + 1)
  rw [if_pos (Nat.lt_succ_self n)] at hresult
  refine ⟨⟨n + 1, _, hresult⟩, fun _ => ⟨?_, fun ⟨k, hk⟩ => absurd hk (hnonul k)⟩,
    fun _ _ _ k hk => absurd hk (hnonul k)⟩
  rintro ⟨fuel, r, hr, htrue⟩
  rw [hvalue fuel] at hr
  split at hr
  · cases hr
    cases htrue
  · cases hr

end Condition

/-- When `validate_string` does what it should, for every page-table state, memory and pointer: exactly
for a string that is not at a page boundary and has its NUL on its first page, or that has none before a
missing page other than the last one of the address space. -/
theorem validatesString_iff (s : Kernel) (string : ℕ) (hstring : string < 2 ^ 64) :
    s.ValidatesString string ↔
      string % 0x1000 ≠ 0 ∧ (s.EndsOnFirstPage string ∨ ∃ n, s.EndsMissing string n) := by
  constructor
  · intro h
    rcases passes_or_first s string with hall | ⟨n, hpasses, hstops⟩
    · obtain ⟨fuel, r, hr⟩ := h.terminates
      rw [validateString_short hstring (fun i _ => hall i) (Nat.le_refl fuel)] at hr
      cases hr
    · by_cases hallowed : s.Allowed string n
      · obtain ⟨k, hk, hbefore, hnone | hnul⟩ := first_stop hstops
        · obtain ⟨fuel, r, hr⟩ := h.terminates
          obtain ⟨examined, -, -, hvalue⟩ := validateString_ends (R := fun _ => none) hstring hpasses
            ((atRound_stopped hstring hallowed hk hbefore).2 hnone)
          rw [hvalue fuel, ite_self] at hr
          cases hr
        · exact ⟨(chunkSize_pos_iff hstring).mp (by omega),
            Or.inl (found_on_first hstring h hpasses hallowed hk hbefore hnul)⟩
      · obtain ⟨haligned, hends⟩ := endsMissing_of_validates hstring h hpasses hallowed
        exact ⟨haligned, Or.inr ⟨n, hends⟩⟩
  · rintro ⟨haligned, hfirst | ⟨n, hends⟩⟩
    · exact validates_of_first hstring hfirst
    · exact validates_of_missing hstring haligned hends

/-- A machine with one page of zeros, at `0x400000`. -/
def zeroPageMachine : Machine :=
  let m := (blankMachine.allocate 0x400000 0x1000 false false 0x100000).2
  { m with memory := Function.update m.memory 0x204000 fun _ => 0 }

/-- The same machine with the name `sh` behind `0x400001`. -/
def namePageMachine : Machine :=
  { zeroPageMachine with memory := Function.update zeroPageMachine.memory 0x204000 fun i => if i = 0 then 0x687300 else 0 }

/-- The name is validated. -/
theorem validatesString_inside : (0x400001 : ℕ) < 2 ^ 64 ∧ Kernel.ValidatesString ⟨namePageMachine, fun _ => 0⟩ 0x400001 := by
  have hchars : ∀ j ≤ 2, (Kernel.readChar ⟨namePageMachine, fun _ => 0⟩ (add64 0x400001 j)).isSome = true := by
    decide +kernel
  exact ⟨by decide, (validatesString_iff _ _ (by decide)).mpr
    ⟨by decide, Or.inl ⟨2, by decide, by decide +kernel, hchars⟩⟩⟩

/-- The empty string at the page boundary `0x400000` is on a present page, and its validation never
returns. -/
theorem validateString_boundary : Kernel.NulAt ⟨zeroPageMachine, fun _ => 0⟩ 0x400000 0 ∧
    ¬ Kernel.ValidatesString ⟨zeroPageMachine, fun _ => 0⟩ 0x400000 := by
  have hstring : (0x400000 : ℕ) < 2 ^ 64 := by decide
  have hempty : Kernel.chunkSize 0x400000 = 0 := by decide
  refine ⟨⟨by decide +kernel, fun j hj => ?_⟩, fun h => ?_⟩
  · obtain rfl : j = 0 := Nat.le_zero.mp hj
    decide +kernel
  · obtain ⟨fuel, r, hr⟩ := h.terminates
    have hpasses (i : ℕ) : Kernel.Passes ⟨zeroPageMachine, fun _ => 0⟩ 0x400000 i := by
      intro j hj
      rw [hempty] at hj
      cases hj
    rw [validateString_short hstring (fun i _ => hpasses i) (Nat.le_refl fuel)] at hr
    cases hr

end Cthulhu
