import Cthulhu.Lib.Bytes
import Cthulhu.Syscalls.StringEnds

/-!
# Validation of process arguments

`create_process_ivfs` validates the path, the array of arguments and each of them, and then the environment,
which ends with a null pointer. The loop over the environment does not advance its index: it looks at the first
slot until that is null or refused. Nothing it does changes the slot, so an environment with a first string that
is accepted is validated for ever.
-/

namespace Cthulhu

open Lib

/-- A 32-bit `int` as a `size_t`. -/
def sizeOfInt (w : ℕ) : ℕ := if w % 2 ^ 32 < 2 ^ 31 then w % 2 ^ 32 else 2 ^ 64 - 2 ^ 32 + w % 2 ^ 32

/-- `(argc+1)*8`, computed as an `int` that wraps. -/
def argvSize (argc : ℕ) : ℕ := sizeOfInt (8 * (argc + 1))

/-- What the validation of the arguments comes to: whether all was accepted, whether the continuation is set, the
strings that `validate_string` accepted, and the kernel. -/
structure ArgumentCheck where
  passed : Bool
  waits : Bool
  validated : List ℕ
  kernel : Kernel

namespace Kernel

variable (s : Kernel)

/-- The pointer in a slot of an array, or `none` for an access that faults. -/
@[irreducible]
def slot (array ix : ℕ) : Option ℕ :=
  if ∀ k < 8, (s.readChar (add64 (add64 array (8 * ix)) k)).isSome then
    some (leWord (fun k => (s.readChar (add64 (add64 array (8 * ix)) k)).getD 0) 8)
  else none

/-- The loop over the arguments, from an index on. -/
def validateArgv (fuel argv : ℕ) : ℕ → ℕ → Kernel → List ℕ → Option ArgumentCheck
  | 0, _, s, validated => some ⟨true, false, validated, s⟩
  | n + 1, ix, s, validated =>
    match s.slot argv ix with
    | none => none
    | some string =>
      match s.validateString fuel string with
      | none => none
      | some r =>
        if r.value then validateArgv fuel argv n (ix + 1) { s with machine := r.machine } (validated ++ [string])
        else some ⟨false, r.waits, validated, { s with machine := r.machine }⟩

/-- The loop over the environment; its index stays 0. -/
def validateEnvp (fuel envp : ℕ) : ℕ → Kernel → List ℕ → Option ArgumentCheck
  | 0, _, _ => none
  | rounds + 1, s, validated =>
    match s.machine.validateAddress fuel envp 8 with
    | none => none
    | some a =>
      let s := { s with machine := a.2.2 }
      if a.1 then
        match s.slot envp 0 with
        | none => none
        | some 0 => some ⟨true, false, validated, s⟩
        | some string =>
          match s.validateString fuel string with
          | none => none
          | some r =>
            if r.value then validateEnvp fuel envp rounds { s with machine := r.machine } (validated ++ [string])
            else some ⟨false, r.waits, validated, { s with machine := r.machine }⟩
      else some ⟨false, a.2.1, validated, s⟩

/-- The part of `create_process_ivfs` that validates its arguments; no value while it has not returned. -/
def validateArguments (fuel path argc argv envp : ℕ) : Option ArgumentCheck :=
  match s.validateString fuel path with
  | none => none
  | some p =>
    let s := { s with machine := p.machine }
    if p.value then
      match s.machine.validateAddress fuel argv (argvSize argc) with
      | none => none
      | some a =>
        let s := { s with machine := a.2.2 }
        if a.1 then
          match s.validateArgv fuel argv (sizeOfInt argc) 0 [path] with
          | none => none
          | some r => if r.passed then r.kernel.validateEnvp fuel envp fuel r.validated else some r
        else some ⟨false, a.2.1, [path], s⟩
    else some ⟨false, p.waits, [], s⟩

/-- The validation returns, and where it passes, `validate_string` has accepted every argument and every string of
the environment before the null pointer. -/
def ValidatesArguments (path argc argv envp : ℕ) : Prop :=
  ∃ fuel r, s.validateArguments fuel path argc argv envp = some r ∧ (r.passed = true →
    (∀ i < argc % 2 ^ 32, argc % 2 ^ 32 < 2 ^ 31 → ∃ string, r.kernel.slot argv i = some string ∧ string ∈ r.validated) ∧
      ∀ n, (∀ i ≤ n, ∃ b, r.kernel.slot envp i = some (b + 1)) →
        ∃ string, r.kernel.slot envp n = some string ∧ string ∈ r.validated)

/-- `validate_string` returns a value for a string. -/
def Verdict (string : ℕ) (value : Bool) : Prop := ∃ fuel r, s.validateString fuel string = some r ∧ r.value = value

/-- `validate_string` returns a value for the string of a slot. -/
def SlotVerdict (array ix : ℕ) (value : Bool) : Prop := ∃ string, s.slot array ix = some string ∧ s.Verdict string value

/-- `validate_address` returns a value for a range, and leaves a kernel. -/
def AddressVerdict (address size : ℕ) (value : Bool) (s' : Kernel) : Prop :=
  ∃ fuel r, s.machine.validateAddress fuel address size = some r ∧ r.1 = value ∧ s' = { s with machine := r.2.2 }

/-- An argument is refused, and those before it are accepted. -/
def ArgvRefused (argv n : ℕ) : Prop := ∃ i < n, (∀ j < i, s.SlotVerdict argv j true) ∧ s.SlotVerdict argv i false

/-- The first slot of the environment is refused, or null, or holds a string that is refused. -/
def EnvpEnds (envp : ℕ) : Prop :=
  s.machine.pageClass envp = .missing ∨ s.slot envp 0 = some 0 ∨
    ∃ string, s.slot envp 0 = some (string + 1) ∧ s.Verdict (string + 1) false

/-- `validate_string` returns for each string that it is asked about, up to the first one it refuses, and where it
accepts the path and the arguments, the environment is empty or its first string is refused. -/
def ArgumentsEnd (path argc argv envp : ℕ) : Prop :=
  s.Verdict path false ∨ s.Verdict path true ∧ ∃ value s', s.AddressVerdict argv (argvSize argc) value s' ∧ (value = true →
    s'.ArgvRefused argv (sizeOfInt argc) ∨
      (∀ i < sizeOfInt argc, s'.SlotVerdict argv i true) ∧ s'.EnvpEnds envp)

end Kernel

section Calls

variable {s : Kernel} {string : ℕ}

/-- `validate_string` returns nothing with any fuel, or one value as soon as the fuel suffices. -/
theorem validateString_returns (hstring : string < 2 ^ 64) : (∀ fuel, s.validateString fuel string = none) ∨
    ∃ n r, r.machine = s.machine ∧ ∀ fuel, s.validateString fuel string = if n < fuel then some r else none := by
  rcases passes_or_first s string with hall | ⟨n, hbefore, hstop⟩
  · exact Or.inl fun fuel => validateString_short hstring (fun i _ => hall i) (Nat.le_refl fuel)
  by_cases hallowed : s.Allowed string n
  · obtain ⟨k, hk, hchars, hend⟩ := first_stop hstop
    obtain ⟨hfound, hfault⟩ := atRound_stopped hstring hallowed hk hchars
    rcases hend with hnone | hnul
    · obtain ⟨examined, -, -, hvalue⟩ := validateString_ends (R := fun _ => none) hstring hbefore (hfault hnone)
      refine Or.inl fun fuel => ?_
      rw [hvalue fuel, ite_self]
    · obtain ⟨examined, -, -, hvalue⟩ := validateString_ends hstring hbefore (hfound hnul)
      exact Or.inr ⟨n, _, rfl, hvalue⟩
  · obtain ⟨examined, -, -, hvalue⟩ := validateString_ends hstring hbefore (atRound_refused hstring hallowed)
    exact Or.inr ⟨n, _, rfl, hvalue⟩

/-- `validate_string` changes no memory, and more fuel gives the same value. -/
theorem validateString_stable (hstring : string < 2 ^ 64) {fuel : ℕ} {r : StringCheck}
    (h : s.validateString fuel string = some r) :
    { s with machine := r.machine } = s ∧ ∀ fuel', fuel ≤ fuel' → s.validateString fuel' string = some r := by
  rcases validateString_returns (s := s) hstring with hnone | ⟨n, r', hmachine, hvalue⟩
  · rw [hnone] at h
    exact absurd h (by simp)
  · rw [hvalue] at h
    split at h
    · rename_i hlong
      rw [← Option.some.inj h]
      refine ⟨by rw [hmachine], fun fuel' hle => ?_⟩
      rw [hvalue, if_pos (by omega)]
    · exact absurd h (by simp)

/-- The two values of `validate_string` exclude each other. -/
theorem Kernel.Verdict.unique {value value' : Bool} (hstring : string < 2 ^ 64) (h : s.Verdict string value)
    (h' : s.Verdict string value') : value = value' := by
  obtain ⟨fuel, r, hr, rfl⟩ := h
  obtain ⟨fuel', r', hr', rfl⟩ := h'
  have hmax := (validateString_stable hstring hr).2 (max fuel fuel') (Nat.le_max_left _ _)
  rw [(validateString_stable hstring hr').2 (max fuel fuel') (Nat.le_max_right _ _)] at hmax
  rw [Option.some.inj hmax]

/-- More fuel gives the same value of the check. -/
theorem checkLoop_more {m : Machine} {limit fuel addr : ℕ} {mstate : MemState} {stored : List ℕ}
    {r : MemState × List ℕ} (h : m.checkLoop limit fuel addr mstate stored = some r) {fuel' : ℕ} (hle : fuel ≤ fuel') :
    m.checkLoop limit fuel' addr mstate stored = some r := by
  induction fuel generalizing fuel' addr mstate stored with
  | zero => exact absurd h (by simp [Machine.checkLoop])
  | succ fuel ih =>
    obtain ⟨fuel', rfl⟩ : ∃ n, fuel' = n + 1 := ⟨fuel' - 1, by omega⟩
    unfold Machine.checkLoop at h ⊢
    split at h
    · rename_i hlt
      rw [if_pos hlt]
      split at h
      · exact h
      · exact ih h (by omega)
    · rename_i hend
      rw [if_neg hend]
      exact h

/-- More fuel gives the same value of `validate_address`. -/
theorem validateAddress_more {m : Machine} {fuel fuel' address size : ℕ} {r : Bool × Bool × Machine}
    (h : m.validateAddress fuel address size = some r) (hle : fuel ≤ fuel') :
    m.validateAddress fuel' address size = some r := by
  unfold Machine.validateAddress Machine.checkMemState at h ⊢
  obtain ⟨c, hc, hr⟩ := Option.map_eq_some_iff.mp h
  rw [checkLoop_more hc hle, Option.map_some, hr]

/-- The check of at most a page looks at the first page only, and changes nothing. -/
theorem validateAddress_short {m : Machine} {address size : ℕ} (hpos : 0 < size) (hsize : size ≤ 0x1000)
    (h : address + 0x1000 + size ≤ 2 ^ 64) (fuel : ℕ) :
    m.validateAddress (fuel + 2) address size = some (decide (m.pageClass address ≠ .missing), false, m) := by
  obtain ⟨gpsId, hround⟩ := checkRound_eq (m := m) address .einvalid []
  have hstore (kind : MemState) (value : ℕ) : storeWaiting kind value .einvalid [] = .ok (kind, [value]) := by
    simp [storeWaiting]
  have hone : (m.pageClass address = .missing ∧ m.checkRound address .einvalid [] = .error .notpresent) ∨
      m.pageClass address ≠ .missing ∧ ∃ mstate stored, m.checkRound address .einvalid [] = .ok (mstate, stored) := by
    cases hclass : m.pageClass address with
    | missing =>
      rw [hclass] at hround
      exact Or.inl ⟨rfl, hround⟩
    | present | idle =>
      rw [hclass] at hround
      exact Or.inr ⟨by simp, _, _, hround⟩
    | swapped | onDemand =>
      rw [hclass] at hround
      exact Or.inr ⟨by simp, _, _, hround.trans (hstore _ _)⟩
  have hpast : ¬ add64 address 0x1000 < address + size := by
    rw [add64_of_lt (by omega)]
    omega
  unfold Machine.validateAddress Machine.checkMemState
  rw [add64_of_lt (by omega), Machine.checkLoop, if_pos (by omega)]
  rcases hone with ⟨hmissing, hstop⟩ | ⟨hpage, mstate, stored, hgo⟩
  · rw [hstop]
    simp [hmissing, Machine.repairMemory]
  · rw [hgo]
    dsimp only
    rw [Machine.checkLoop, if_neg hpast]
    simp [hpage]

/-- The check of a slot. -/
theorem validateAddress_slot {m : Machine} {address : ℕ} (h : address + 0x1008 ≤ 2 ^ 64) (fuel : ℕ) :
    m.validateAddress (fuel + 2) address 8 = some (decide (m.pageClass address ≠ .missing), false, m) :=
  validateAddress_short (by decide) (by decide) h fuel

/-- Its only value. -/
theorem validateAddress_slot_eq {m : Machine} {address fuel : ℕ} {a : Bool × Bool × Machine}
    (h : address + 0x1008 ≤ 2 ^ 64) (ha : m.validateAddress fuel address 8 = some a) :
    a = (decide (m.pageClass address ≠ .missing), false, m) := by
  have hmore := validateAddress_more ha (show fuel ≤ fuel + 2 by omega)
  rw [validateAddress_slot h] at hmore
  exact (Option.some.inj hmore).symm

/-- A pointer is a word. -/
theorem Kernel.slot_lt {array ix : ℕ} (h : s.slot array ix = some string) : string < 2 ^ 64 := by
  unfold Kernel.slot at h
  split at h
  · rw [← Option.some.inj h]
    exact leWord_lt _ 8
  · exact absurd h (by simp)

end Calls

section Loops

variable {s : Kernel} {argv envp : ℕ}

/-- What the loop over the arguments returns: all of them were accepted, or one was refused. -/
theorem validateArgv_returns {fuel n ix : ℕ} {validated : List ℕ} {r : ArgumentCheck}
    (h : Kernel.validateArgv fuel argv n ix s validated = some r) : r.kernel = s ∧ (∀ string ∈ validated, string ∈ r.validated) ∧
      (r.passed = true ∧ (∀ j < n, s.SlotVerdict argv (ix + j) true ∧
          ∃ string, s.slot argv (ix + j) = some string ∧ string ∈ r.validated) ∨
        r.passed = false ∧ ∃ j < n, (∀ i < j, s.SlotVerdict argv (ix + i) true) ∧ s.SlotVerdict argv (ix + j) false) := by
  induction n generalizing ix validated with
  | zero =>
    rw [Kernel.validateArgv] at h
    rw [← Option.some.inj h]
    exact ⟨rfl, fun _ hmem => hmem, Or.inl ⟨rfl, fun j hj => absurd hj (Nat.not_lt_zero j)⟩⟩
  | succ n ih =>
    rw [Kernel.validateArgv] at h
    split at h
    · exact absurd h (by simp)
    rename_i string hslot
    split at h
    · exact absurd h (by simp)
    rename_i check hcheck
    obtain ⟨hsame, -⟩ := validateString_stable (Kernel.slot_lt hslot) hcheck
    rw [hsame] at h
    cases hvalue : check.value with
    | false =>
      rw [hvalue, if_neg (by decide)] at h
      rw [← Option.some.inj h]
      exact ⟨rfl, fun _ hmem => hmem, Or.inr ⟨rfl, 0, Nat.succ_pos n, fun i hi => absurd hi (Nat.not_lt_zero i),
        string, hslot, fuel, check, hcheck, hvalue⟩⟩
    | true =>
      rw [hvalue, if_pos rfl] at h
      have hfirst : s.SlotVerdict argv ix true := ⟨string, hslot, fuel, check, hcheck, hvalue⟩
      obtain ⟨hkernel, hkept, hrest⟩ := ih h
      have hshift (j : ℕ) : ix + (j + 1) = ix + 1 + j := by omega
      refine ⟨hkernel, fun x hx => hkept x (List.mem_append_left _ hx), ?_⟩
      rcases hrest with ⟨hpassed, hall⟩ | ⟨hfailed, j, hj, hbefore, hstop⟩
      · refine Or.inl ⟨hpassed, fun j hj => ?_⟩
        cases j with
        | zero => exact ⟨hfirst, string, hslot, hkept string (by simp)⟩
        | succ j =>
          rw [hshift]
          exact hall j (Nat.lt_of_succ_lt_succ hj)
      · refine Or.inr ⟨hfailed, j + 1, Nat.succ_lt_succ hj, fun i hi => ?_, by rw [hshift]; exact hstop⟩
        cases i with
        | zero => exact hfirst
        | succ i =>
          rw [hshift]
          exact hbefore i (Nat.lt_of_succ_lt_succ hi)

/-- The loop over the arguments returns with enough fuel when all of them are accepted, or one is refused behind
accepted ones. -/
theorem validateArgv_ends {n ix : ℕ} (validated : List ℕ)
    (h : (∀ j < n, s.SlotVerdict argv (ix + j) true) ∨
      ∃ j < n, (∀ i < j, s.SlotVerdict argv (ix + i) true) ∧ s.SlotVerdict argv (ix + j) false) :
    ∃ enough, ∀ fuel, enough ≤ fuel → ∃ r, Kernel.validateArgv fuel argv n ix s validated = some r := by
  induction n generalizing ix validated with
  | zero => exact ⟨0, fun fuel _ => ⟨_, rfl⟩⟩
  | succ n ih =>
    have hshift (j : ℕ) : ix + 1 + j = ix + (j + 1) := by omega
    have hfirst : ∃ value, s.SlotVerdict argv ix value ∧ (value = true →
        (∀ j < n, s.SlotVerdict argv (ix + 1 + j) true) ∨
          ∃ j < n, (∀ i < j, s.SlotVerdict argv (ix + 1 + i) true) ∧ s.SlotVerdict argv (ix + 1 + j) false) := by
      rcases h with hall | ⟨j, hj, hbefore, hstop⟩
      · exact ⟨true, hall 0 (Nat.succ_pos n), fun _ => Or.inl fun j hj => by
          rw [hshift]
          exact hall (j + 1) (Nat.succ_lt_succ hj)⟩
      · cases j with
        | zero => exact ⟨false, hstop, fun hfalse => absurd hfalse (by decide)⟩
        | succ j =>
          refine ⟨true, hbefore 0 (Nat.succ_pos j), fun _ => Or.inr ⟨j, Nat.lt_of_succ_lt_succ hj, fun i hi => ?_, ?_⟩⟩
          · rw [hshift]
            exact hbefore (i + 1) (Nat.succ_lt_succ hi)
          · rw [hshift]
            exact hstop
    obtain ⟨value, ⟨string, hslot, fuel₀, check, hcheck, hvalue⟩, hrest⟩ := hfirst
    obtain ⟨hsame, hmore⟩ := validateString_stable (Kernel.slot_lt hslot) hcheck
    cases value with
    | false =>
      refine ⟨fuel₀, fun fuel hfuel => ?_⟩
      rw [Kernel.validateArgv, hslot]
      dsimp only
      rw [hmore fuel hfuel]
      dsimp only
      rw [hvalue, if_neg (by decide)]
      exact ⟨_, rfl⟩
    | true =>
      obtain ⟨enough, hends⟩ := ih (validated ++ [string]) (hrest rfl)
      refine ⟨max fuel₀ enough, fun fuel hfuel => ?_⟩
      obtain ⟨r, hr⟩ := hends fuel (by omega)
      rw [Kernel.validateArgv, hslot]
      dsimp only
      rw [hmore fuel (by omega)]
      dsimp only
      rw [hvalue, if_pos rfl, hsame]
      exact ⟨r, hr⟩

/-- What the loop over the environment returns: its first slot ends the environment, or it was refused. -/
theorem validateEnvp_returns (henvp : envp + 0x1008 ≤ 2 ^ 64) {fuel rounds : ℕ} {validated : List ℕ} {r : ArgumentCheck}
    (h : Kernel.validateEnvp fuel envp rounds s validated = some r) : s.EnvpEnds envp ∧ r.kernel = s ∧
      (∀ string ∈ validated, string ∈ r.validated) ∧ (r.passed = true → s.slot envp 0 = some 0) := by
  induction rounds generalizing validated with
  | zero => exact absurd h (by simp [Kernel.validateEnvp])
  | succ rounds ih =>
    rw [Kernel.validateEnvp] at h
    split at h
    · exact absurd h (by simp)
    rename_i a ha
    rw [validateAddress_slot_eq henvp ha] at h
    dsimp only at h
    split at h
    · split at h
      · exact absurd h (by simp)
      · rename_i hnull
        rw [← Option.some.inj h]
        exact ⟨Or.inr (Or.inl hnull), rfl, fun _ hmem => hmem, fun _ => hnull⟩
      rename_i string hnonnull hslot
      split at h
      · exact absurd h (by simp)
      rename_i check hcheck
      obtain ⟨hsame, -⟩ := validateString_stable (Kernel.slot_lt hslot) hcheck
      rw [hsame] at h
      cases hvalue : check.value with
      | true =>
        rw [hvalue, if_pos rfl] at h
        obtain ⟨hends, hkernel, hkept, hpassed⟩ := ih h
        exact ⟨hends, hkernel, fun x hx => hkept x (List.mem_append_left _ hx), hpassed⟩
      | false =>
        rw [hvalue, if_neg (by decide)] at h
        rw [← Option.some.inj h]
        obtain ⟨word, rfl⟩ : ∃ word, string = word + 1 := Nat.exists_eq_succ_of_ne_zero hnonnull
        exact ⟨Or.inr (Or.inr ⟨word, hslot, fuel, check, hcheck, hvalue⟩), rfl, fun _ hmem => hmem,
          fun hpassed => absurd hpassed (by simp)⟩
    · rename_i hrefused
      rw [← Option.some.inj h]
      refine ⟨Or.inl (by simpa using hrefused), rfl, fun _ hmem => hmem, fun hpassed => absurd hpassed (by simp)⟩

/-- The loop over the environment returns with enough fuel when its first slot ends the environment or is
refused. -/
theorem validateEnvp_ends (henvp : envp + 0x1008 ≤ 2 ^ 64) (h : s.EnvpEnds envp) :
    ∃ enough, ∀ fuel, enough ≤ fuel → ∀ validated, ∃ r, Kernel.validateEnvp fuel envp fuel s validated = some r := by
  have hcheck (fuel : ℕ) : s.machine.validateAddress (fuel + 2) envp 8 =
      some (decide (s.machine.pageClass envp ≠ .missing), false, s.machine) := validateAddress_slot henvp fuel
  by_cases hmissing : s.machine.pageClass envp = .missing
  · refine ⟨2, fun fuel hfuel validated => ?_⟩
    obtain ⟨fuel, rfl⟩ : ∃ n, fuel = n + 2 := ⟨fuel - 2, by omega⟩
    rw [Kernel.validateEnvp, hcheck]
    simp [hmissing]
  rcases h with hmissing' | hnull | ⟨word, hslot, fuel₀, check, hvalue, hfalse⟩
  · exact absurd hmissing' hmissing
  · refine ⟨2, fun fuel hfuel validated => ?_⟩
    obtain ⟨fuel, rfl⟩ : ∃ n, fuel = n + 2 := ⟨fuel - 2, by omega⟩
    rw [Kernel.validateEnvp, hcheck]
    simp [hmissing, hnull]
  · obtain ⟨-, hmore⟩ := validateString_stable (Kernel.slot_lt hslot) hvalue
    refine ⟨max 2 fuel₀, fun fuel hfuel validated => ?_⟩
    obtain ⟨fuel, rfl⟩ : ∃ n, fuel = n + 2 := ⟨fuel - 2, by omega⟩
    rw [Kernel.validateEnvp, hcheck]
    simp [hmissing, hslot, hmore (fuel + 2) (by omega), hfalse]

/-- An argument is not both accepted and refused. -/
theorem Kernel.SlotVerdict.unique {ix : ℕ} {value value' : Bool} (h : s.SlotVerdict argv ix value)
    (h' : s.SlotVerdict argv ix value') : value = value' := by
  obtain ⟨string, hslot, hverdict⟩ := h
  obtain ⟨string', hslot', hverdict'⟩ := h'
  obtain rfl : string = string' := Option.some.inj (hslot.symm.trans hslot')
  exact hverdict.unique (Kernel.slot_lt hslot) hverdict'

end Loops

/-- A validation that returns meets the condition. -/
theorem argumentsEnd_of_returns {s : Kernel} {fuel path argc argv envp : ℕ} (hpath : path < 2 ^ 64)
    (henvp : envp + 0x1008 ≤ 2 ^ 64) {r : ArgumentCheck} (hr : s.validateArguments fuel path argc argv envp = some r) :
    s.ArgumentsEnd path argc argv envp := by
  unfold Kernel.validateArguments at hr
  split at hr
  · exact absurd hr (by simp)
  rename_i p hp
  obtain ⟨hsame, -⟩ := validateString_stable hpath hp
  rw [hsame] at hr
  dsimp only at hr
  split at hr
  · rename_i haccepted
    refine Or.inr ⟨⟨fuel, p, hp, haccepted⟩, ?_⟩
    split at hr
    · exact absurd hr (by simp)
    rename_i a ha
    refine ⟨a.1, _, ⟨fuel, a, ha, rfl, rfl⟩, fun hvalue => ?_⟩
    rw [if_pos hvalue] at hr
    split at hr
    · exact absurd hr (by simp)
    rename_i loop hloop
    obtain ⟨hkernel, -, hcases⟩ := validateArgv_returns hloop
    simp only [Nat.zero_add] at hcases
    rcases hcases with ⟨hpassed, hall⟩ | ⟨-, hrefused⟩
    · rw [if_pos hpassed, hkernel] at hr
      exact Or.inr ⟨fun i hi => (hall i hi).1, (validateEnvp_returns henvp hr).1⟩
    · exact Or.inl hrefused
  · rename_i hrefused
    exact Or.inl ⟨fuel, p, hp, by simpa using hrefused⟩

/-- The validation of the arguments does what it should exactly when `validate_string` returns for every string
that it is asked about, and an environment behind accepted arguments is empty or starts with a refused string. -/
theorem validatesArguments_iff (s : Kernel) (path argc argv envp : ℕ) (hpath : path < 2 ^ 64)
    (henvp : envp + 0x1008 ≤ 2 ^ 64) :
    s.ValidatesArguments path argc argv envp ↔ s.ArgumentsEnd path argc argv envp := by
  constructor
  · rintro ⟨fuel, r, hr, -⟩
    exact argumentsEnd_of_returns hpath henvp hr
  · rintro (⟨fuel, p, hp, hrefused⟩ | ⟨⟨fuel₁, p, hp, haccepted⟩, value, s', ⟨fuel₂, a, ha, hvalue, rfl⟩, hrest⟩)
    · refine ⟨fuel, ⟨false, p.waits, [], { s with machine := p.machine }⟩, ?_, fun hpassed => absurd hpassed (by simp)⟩
      unfold Kernel.validateArguments
      rw [hp]
      simp [hrefused]
    obtain ⟨hsame, hmore⟩ := validateString_stable hpath hp
    have hmachine : p.machine = s.machine := congrArg Kernel.machine hsame
    have hstart (fuel : ℕ) (hfuel : max fuel₁ fuel₂ ≤ fuel) : s.validateArguments fuel path argc argv envp =
        if value then
          match Kernel.validateArgv fuel argv (sizeOfInt argc) 0 { s with machine := a.2.2 } [path] with
          | none => none
          | some r => if r.passed then r.kernel.validateEnvp fuel envp fuel r.validated else some r
        else some ⟨false, a.2.1, [path], { s with machine := a.2.2 }⟩ := by
      unfold Kernel.validateArguments
      rw [hmore fuel (by omega)]
      dsimp only
      rw [if_pos haccepted, hmachine, validateAddress_more ha (show fuel₂ ≤ fuel by omega)]
      dsimp only
      rw [hvalue]
    cases value with
    | false =>
      refine ⟨max fuel₁ fuel₂, _, (hstart _ (Nat.le_refl _)).trans (if_neg (by decide)), fun hpassed => ?_⟩
      exact absurd hpassed (by simp)
    | true =>
      simp only [if_true] at hstart
      have hrest := hrest rfl
      obtain ⟨enough, hloop⟩ := @validateArgv_ends _ _ _ 0 [path] (by
        simp only [Nat.zero_add]
        exact hrest.symm.imp And.left id)
      rcases hrest with ⟨j, hj, hbefore, hstop⟩ | ⟨hall, hends⟩
      · obtain ⟨r, hr⟩ := hloop (max enough (max fuel₁ fuel₂)) (by omega)
        obtain ⟨-, -, ⟨-, hpassed⟩ | ⟨hfailed, -⟩⟩ := validateArgv_returns hr
        · have haccepted := (hpassed j hj).1
          rw [Nat.zero_add] at haccepted
          exact absurd (hstop.unique haccepted) (by decide)
        · refine ⟨max enough (max fuel₁ fuel₂), r, (hstart _ (Nat.le_max_right _ _)).trans ?_, fun hpassed => ?_⟩
          · rw [hr]
            simp [hfailed]
          · exact absurd (hpassed.symm.trans hfailed) (by decide)
      · obtain ⟨enough', henvironment⟩ := validateEnvp_ends henvp hends
        obtain ⟨r, hr⟩ := hloop (max (max enough enough') (max fuel₁ fuel₂)) (by omega)
        obtain ⟨hkernel, -, hcases⟩ := validateArgv_returns hr
        simp only [Nat.zero_add] at hcases
        rcases hcases with ⟨hpassed, harguments⟩ | ⟨-, j, hj, -, hstop⟩
        · obtain ⟨r', hr'⟩ := henvironment (max (max enough enough') (max fuel₁ fuel₂)) (by omega) r.validated
          obtain ⟨-, hkernel', hkept, hnull⟩ := validateEnvp_returns henvp hr'
          refine ⟨max (max enough enough') (max fuel₁ fuel₂), r', (hstart _ (Nat.le_max_right _ _)).trans ?_,
            fun haccepted => ⟨fun i hi hargc => ?_, fun n hn => ?_⟩⟩
          · rw [hr]
            simp only [hpassed, if_true, hkernel]
            exact hr'
          · obtain ⟨-, string, hslot, hmem⟩ := harguments i (by rw [sizeOfInt, if_pos hargc]; exact hi)
            rw [hkernel']
            exact ⟨string, hslot, hkept string hmem⟩
          · obtain ⟨word, hword⟩ := hn 0 (Nat.zero_le n)
            rw [hkernel', hnull haccepted] at hword
            exact absurd (Option.some.inj hword).symm (Nat.succ_ne_zero word)
        · exact absurd ((hall j hj).unique hstop) (by decide)

/-- A machine with one page of zeros at `0x400000`, with the word `0x400001` at `0x400200`. -/
def environmentMachine : Machine :=
  let m := (blankMachine.allocate 0x400000 0x1000 false false 0x100000).2
  { m with memory := Function.update m.memory 0x204000 (Function.update (fun _ => 0) 64 0x400001) }

/-- The empty string behind `0x400001` is accepted, as a path, an argument and in an environment. -/
theorem environmentMachine_verdict : Kernel.Verdict ⟨environmentMachine, fun _ => 0⟩ 0x400001 true :=
  ⟨2, (Kernel.validateString ⟨environmentMachine, fun _ => 0⟩ 2 0x400001).get (by decide +kernel),
    (Option.some_get _).symm, by decide +kernel⟩

/-- One argument, and an empty environment at the slot behind it, are validated. -/
theorem validatesArguments_one : (0x400001 : ℕ) < 2 ^ 64 ∧ 0x400208 + 0x1008 ≤ 2 ^ 64 ∧
    Kernel.ValidatesArguments ⟨environmentMachine, fun _ => 0⟩ 0x400001 1 0x400200 0x400208 := by
  have hslot : Kernel.slot ⟨environmentMachine, fun _ => 0⟩ 0x400200 0 = some 0x400001 := by decide +kernel
  have hcount : sizeOfInt 1 = 1 := by decide
  refine ⟨by decide, by decide, (validatesArguments_iff _ _ _ _ _ (by decide) (by decide)).mpr (Or.inr ⟨
    environmentMachine_verdict, true, _, ⟨2, _, validateAddress_short (by decide) (by decide) (by decide) 0,
      by decide +kernel, rfl⟩, fun _ => Or.inr ⟨fun i hi => ?_, Or.inr (Or.inl ?_)⟩⟩)⟩
  · obtain rfl : i = 0 := by omega
    exact ⟨_, hslot, environmentMachine_verdict⟩
  · decide +kernel

/-- An environment of one accepted string is validated for ever. -/
theorem validateArguments_environment : Kernel.slot ⟨environmentMachine, fun _ => 0⟩ 0x400200 0 = some 0x400001 ∧
    Kernel.slot ⟨environmentMachine, fun _ => 0⟩ 0x400200 1 = some 0 ∧
    Kernel.Verdict ⟨environmentMachine, fun _ => 0⟩ 0x400001 true ∧
    ¬ Kernel.ValidatesArguments ⟨environmentMachine, fun _ => 0⟩ 0x400001 0 0x400100 0x400200 := by
  have hslot : Kernel.slot ⟨environmentMachine, fun _ => 0⟩ 0x400200 0 = some 0x400001 := by decide +kernel
  have haccepted (value : Bool) (h : Kernel.Verdict ⟨environmentMachine, fun _ => 0⟩ 0x400001 value) : value = true :=
    h.unique (by decide) environmentMachine_verdict
  refine ⟨hslot, by decide +kernel, environmentMachine_verdict, ?_⟩
  rintro ⟨fuel, r, hr, -⟩
  rcases argumentsEnd_of_returns (by decide) (by decide) hr with hrefused | ⟨-, value, s', ⟨fuel', a, ha, hvalue, rfl⟩, hrest⟩
  · exact absurd (haccepted false hrefused) (by decide)
  · have hsame : a = (decide (environmentMachine.pageClass 0x400100 ≠ .missing), false, environmentMachine) :=
      validateAddress_slot_eq (by decide) ha
    have hclass : environmentMachine.pageClass 0x400100 ≠ .missing := by decide +kernel
    rw [hsame] at hvalue hrest
    rcases hrest (hvalue.symm.trans (decide_eq_true hclass)) with ⟨i, hi, -⟩ | ⟨-, hends⟩
    · exact absurd hi (Nat.not_lt_zero i)
    · rcases hends with hmissing | hnull | ⟨word, hword, hfalse⟩
      · exact absurd hmissing (by decide +kernel)
      · exact absurd (hslot.symm.trans hnull) (by decide)
      · obtain rfl : 0x400000 = word := Nat.succ.inj (Option.some.inj (hslot.symm.trans hword))
        exact absurd (haccepted false hfalse) (by decide)

end Cthulhu
