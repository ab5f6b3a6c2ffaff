import Cthulhu.Memory.BootSearch

/-!
# The end of the pool search

Whatever `check_if_used` answers, also when it answers one address differently in different rounds: every round of the
search over an entry that goes on does so at a higher base address, and no address wraps.
-/

namespace Cthulhu

/-- The base address that a round leaves, if the search goes on. -/
def SearchStep.next : SearchStep → Option ℕ
  | .finish => none
  | .skip next => some next
  | .pool _ next => some next

/-- The base address after so many rounds over an entry, given the answers of `check_if_used` in each round. -/
def MemEntry.baseAddr (e : MemEntry) (used : ℕ → ℕ → Bool) : ℕ → Option ℕ
  | 0 => if e.type ≠ 1 then none else if e.size < 0x10000 then none else some e.address
  | n + 1 => (e.baseAddr used n).bind fun base => (searchStep (used n) e.address e.size base).next

/-- What is said of the search: it ends, the counter of the inner loop does not wrap, the base address grows in every round
that goes on, and no pool is too small. -/
structure MemEntry.SearchEnds (e : MemEntry) (used : ℕ → ℕ → Bool) : Prop where
  ends : ∃ n, e.baseAddr used n = none
  scans : ∀ n base, e.baseAddr used n = some base → ∀ test ∈ pageRange base e.size, test + 0x1000 < 2 ^ 64
  grows : ∀ n base base', e.baseAddr used n = some base → e.baseAddr used (n + 1) = some base' → base < base'
  large : ∀ n base length next, e.baseAddr used n = some base →
    searchStep (used n) e.address e.size base = .pool length next → 0x10000 ≤ length

section Step

variable {used : ℕ → Bool} {e : MemEntry} {base : ℕ}

/-- A round that goes on leaves a base address that is a page higher at least, and that does not wrap; a pool that it makes
is large enough. -/
theorem searchStep_progress (hsize : 0x10000 ≤ e.size) (hrange : e.address + 2 * e.size < 2 ^ 64) :
    (∀ next, (searchStep used e.address e.size base).next = some next →
        base < e.address + e.size ∧ base + 0x1000 ≤ next ∧ next < e.address + 2 * e.size) ∧
      ∀ length next, searchStep used e.address e.size base = .pool length next → 0x10000 ≤ length := by
  have hend : add64 e.size e.address = e.address + e.size := by
    rw [add64_of_lt (by omega), Nat.add_comm]
  have hend' : add64 e.address e.size = e.address + e.size := add64_of_lt (by omega)
  unfold searchStep
  rw [hend, hend']
  by_cases hover : e.address + e.size ≤ base
  · rw [if_pos hover]
    exact ⟨fun next hnext => absurd hnext (by simp [SearchStep.next]), fun length next hpool => absurd hpool (by simp)⟩
  · rw [if_neg hover]
    cases hscan : (pageRange base e.size).find? used with
    | none =>
      dsimp only
      rw [add64_of_lt (by omega)]
      refine ⟨fun next hnext => ?_, fun length next hpool => ?_⟩
      · obtain rfl := Option.some.inj hnext
        omega
      · rw [SearchStep.pool.injEq] at hpool
        omega
    | some test =>
      obtain ⟨i, rfl, htest, -, -⟩ := find_pageRange_some hscan
      have hlength : base + 0x1000 * i - base = 0x1000 * i := Nat.add_sub_cancel_left _ _
      dsimp only
      rw [hlength, add64_of_lt (by omega), add64_of_lt (by omega)]
      constructor
      · intro next hnext
        split at hnext
        next hzero =>
          split at hnext
          · obtain rfl := Option.some.inj hnext
            omega
          · exact absurd hnext (by simp [SearchStep.next])
        next hpos =>
          split at hnext
          · split at hnext
            · obtain rfl := Option.some.inj hnext
              omega
            · exact absurd hnext (by simp [SearchStep.next])
          · obtain rfl := Option.some.inj hnext
            omega
      · intro length next hpool
        split at hpool
        · split at hpool <;> exact absurd hpool (by simp)
        · split at hpool
          · split at hpool <;> exact absurd hpool (by simp)
          · rw [SearchStep.pool.injEq] at hpool
            omega

end Step

section Rounds

variable {used : ℕ → ℕ → Bool} {e : MemEntry}

/-- An entry that is searched is RAM and large enough. -/
theorem MemEntry.baseAddr_searched {n base : ℕ} (h : e.baseAddr used n = some base) : 0x10000 ≤ e.size := by
  induction n generalizing base with
  | zero =>
    unfold baseAddr at h
    split at h
    · exact absurd h (by simp)
    · split at h
      · exact absurd h (by simp)
      next hsmall => exact Nat.le_of_not_lt hsmall
  | succ n ih =>
    obtain ⟨before, hbefore, -⟩ := Option.bind_eq_some_iff.mp h
    exact ih hbefore

/-- After so many rounds the base address is so many pages higher. -/
theorem MemEntry.baseAddr_bounds (hrange : e.address + 2 * e.size < 2 ^ 64) {n base : ℕ} (h : e.baseAddr used n = some base) :
    e.address + 0x1000 * n ≤ base ∧ base < e.address + 2 * e.size := by
  have hsize := baseAddr_searched h
  induction n generalizing base with
  | zero =>
    unfold baseAddr at h
    split at h
    · exact absurd h (by simp)
    · split at h
      · exact absurd h (by simp)
      · obtain rfl := Option.some.inj h
        omega
  | succ n ih =>
    obtain ⟨before, hbefore, hstep⟩ := Option.bind_eq_some_iff.mp h
    have hfrom := ih hbefore
    have hto := (searchStep_progress hsize hrange).1 base hstep
    omega

/-- The search over an entry ends. -/
theorem searchEnds (e : MemEntry) (used : ℕ → ℕ → Bool) (hrange : e.address + 2 * e.size < 2 ^ 64) : e.SearchEnds used where
  ends := by
    refine ⟨e.rounds, ?_⟩
    cases hlast : e.baseAddr used e.rounds with
    | none => rfl
    | some base =>
      -- the round before began behind the entry
      obtain ⟨before, hbefore, hstep⟩ := Option.bind_eq_some_iff.mp hlast
      have hbounds := MemEntry.baseAddr_bounds hrange hbefore
      have hinside := (searchStep_progress (MemEntry.baseAddr_searched hbefore) hrange).1 base hstep
      omega
  scans := by
    intro n base h test htest
    obtain ⟨i, rfl, hlimit⟩ := mem_pageRange.mp htest
    have hsize := MemEntry.baseAddr_searched h
    omega
  grows := by
    intro n base base' h hnext
    have hstep : (searchStep (used n) e.address e.size base).next = some base' := by
      rw [MemEntry.baseAddr, h] at hnext
      exact hnext
    have hprogress := (searchStep_progress (MemEntry.baseAddr_searched h) hrange).1 base' hstep
    omega
  large := by
    intro n base length next h hpool
    exact (searchStep_progress (MemEntry.baseAddr_searched h) hrange).2 length next hpool

/-- An entry with a used page in each round. -/
theorem searchEnds_used : (⟨0x100000, 0x20000, 1⟩ : MemEntry).SearchEnds fun n test => test = 0x100000 + 0x1000 * n :=
  searchEnds _ _ (by decide)

end Rounds

end Cthulhu
