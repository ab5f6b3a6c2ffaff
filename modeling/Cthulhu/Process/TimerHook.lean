import Cthulhu.Process.Scheduler

/-!
# The timer hook

The loop of `attemp_to_run_scheduler`, which the timer interrupt runs on the current CPU. A round picks a CPU at
random. A CPU without queued threads counts as a tick, and one with threads is sent the scheduler's interrupt, after
which the loop ends. The current CPU, when its lock was held by what the interrupt stopped, does neither: `continue`
goes to the test of the loop with the ticks as they were. To send takes locks, and for the current CPU it is to run
the scheduler: with one of the locks held by what the interrupt stopped it never comes to its end.

The loads and the locks are those that a round finds, since the other CPUs go on while the loop runs.
-/

namespace Cthulhu

/-- The locks that `send_ipi_nowait` takes: the `__ipi_lock` of a CPU and, when it runs the scheduler, those of the
current one and `__thread_modifier`. -/
inductive HookLock (n : ℕ)
  | ipi (c : Fin (n + 1))
  | cpu
  | sched
  | threadModifier
  | messageClear
  deriving DecidableEq

/-- What the loop of `attemp_to_run_scheduler` meets. A round picks a CPU and finds a state, whether `__cpu_lock` of
the current CPU is 1 and whether the CPU picked is started. A lock that it would wait for is held for ever or given up
in time; those held by what the interrupt stopped are held for ever. Where the scheduler is run, a call replayed for
the thread it selects comes to its end or does not. -/
structure HookRounds (n : ℕ) where
  current : Fin (n + 1)
  pick : ℕ → Fin (n + 1)
  state : ℕ → Scheduler n
  locked : ℕ → Bool
  started : ℕ → Bool
  held : ℕ → HookLock n → Bool
  replayed : ℕ → Bool

/-- What the loop came to: the number of picks and the CPU that was sent the interrupt. -/
structure HookResult (n : ℕ) where
  picks : ℕ
  sent : Option (Fin (n + 1))
  deriving DecidableEq, Repr

namespace HookRounds

variable {n : ℕ} (h : HookRounds n)

/-- `do_get_priority_count` of the CPU that a round picks. -/
def load (round : ℕ) : ℕ := ((h.state round).cpu (h.pick round)).priorityCount

/-- The locks that `send_ipi_nowait` takes for the CPU that a round picks, in their order. For the current CPU it calls
`ipi_received`, which runs `schedule`; the queue it has found still has a thread, as only its own CPU takes one out. -/
def sendLocks (round : ℕ) : List (HookLock n) :=
  if h.pick round = h.current then [.ipi h.current, .cpu, .sched, .threadModifier, .messageClear]
  else if h.started round then [.ipi (h.pick round)] else []

/-- `send_ipi_nowait` returns: it gets its locks, and what it runs comes to its end. -/
def sendReturns (round : ℕ) : Bool :=
  (h.sendLocks round).all (fun l => !h.held round l) && (decide (h.pick round ≠ h.current) || h.replayed round)

/-- The loop of `attemp_to_run_scheduler` from a round on; there is no result while it goes on, and none where a round
never comes to its end. -/
def loop : ℕ → ℕ → ℕ → Option (HookResult n)
  | 0, _, _ => none
  | fuel + 1, round, ticks =>
    if 0 < h.load round then
      if h.pick round = h.current ∧ h.locked round = true then
        -- `continue`
        if ticks < n + 1 then loop fuel (round + 1) ticks else some ⟨round + 1, none⟩
      else if h.sendReturns round then some ⟨round + 1, some (h.pick round)⟩ else none
    else if ticks + 1 < n + 1 then loop fuel (round + 1) (ticks + 1) else some ⟨round + 1, none⟩

/-- `attemp_to_run_scheduler` returns, after as many picks as there are CPUs at most. -/
def Returns : Prop := ∃ fuel r, h.loop fuel 0 0 = some r ∧ r.picks ≤ n + 1

/-- The round picks a CPU with threads and sends the interrupt. -/
def Reaches (round : ℕ) : Prop := 0 < h.load round ∧ ¬ (h.pick round = h.current ∧ h.locked round = true)

/-- The round sends the interrupt and ends the loop. -/
def Sends (round : ℕ) : Prop := h.Reaches round ∧ h.sendReturns round = true

/-- The round waits for ever where it sends the interrupt. -/
def Hangs (round : ℕ) : Prop := h.Reaches round ∧ h.sendReturns round = false

/-- The round picks the current CPU, which has threads and whose lock is held. -/
def Stalls (round : ℕ) : Prop := 0 < h.load round ∧ h.pick round = h.current ∧ h.locked round = true

variable {h}

/-- A round sends, hangs, stalls, or counts as a tick. -/
theorem round_cases (round : ℕ) : h.Sends round ∨ h.Hangs round ∨ h.Stalls round ∨ h.load round = 0 := by
  unfold Sends Hangs Stalls Reaches
  by_cases hload : 0 < h.load round
  · by_cases hlocked : h.pick round = h.current ∧ h.locked round = true
    · exact Or.inr (Or.inr (Or.inl ⟨hload, hlocked⟩))
    · cases hreturns : h.sendReturns round with
      | true => exact Or.inl ⟨⟨hload, hlocked⟩, rfl⟩
      | false => exact Or.inr (Or.inl ⟨⟨hload, hlocked⟩, rfl⟩)
  · exact Or.inr (Or.inr (Or.inr (Nat.eq_zero_of_not_pos hload)))

/-- A round that sends ends the loop. -/
theorem loop_sends {round : ℕ} (hround : h.Sends round) (fuel ticks : ℕ) :
    h.loop (fuel + 1) round ticks = some ⟨round + 1, some (h.pick round)⟩ := by
  rw [loop, if_pos hround.1.1, if_neg hround.1.2, if_pos hround.2]

/-- A round that hangs is the last one. -/
theorem loop_hangs {round : ℕ} (hround : h.Hangs round) (fuel ticks : ℕ) : h.loop (fuel + 1) round ticks = none := by
  rw [loop, if_pos hround.1.1, if_neg hround.1.2, hround.2]
  rfl

/-- A round that stalls goes on with the same ticks. -/
theorem loop_stalls {round ticks : ℕ} (hround : h.Stalls round) (hticks : ticks < n + 1) (fuel : ℕ) :
    h.loop (fuel + 1) round ticks = h.loop fuel (round + 1) ticks := by
  rw [loop, if_pos hround.1, if_pos hround.2, if_pos hticks]

/-- A round without threads adds a tick, and the last tick ends the loop. -/
theorem loop_ticks {round : ℕ} (hround : h.load round = 0) (fuel ticks : ℕ) : h.loop (fuel + 1) round ticks =
    if ticks + 1 < n + 1 then h.loop fuel (round + 1) (ticks + 1) else some ⟨round + 1, none⟩ := by
  rw [loop, if_neg (by omega)]

/-- The loop ends where a later round sends and none hangs before. -/
theorem loop_returns_of_sends {round ticks d : ℕ} (hsends : h.Sends (round + d)) (hfree : ∀ i < d, ¬ h.Hangs (round + i))
    (hticks : ticks < n + 1) : ∃ r, h.loop (d + 1) round ticks = some r ∧ r.picks ≤ round + d + 1 := by
  induction d generalizing round ticks with
  | zero => exact ⟨_, loop_sends hsends 0 ticks, Nat.le_refl _⟩
  | succ d ih =>
    have hlater : h.Sends (round + 1 + d) := by rwa [Nat.add_assoc, Nat.add_comm 1 d]
    have hrest : ∀ i < d, ¬ h.Hangs (round + 1 + i) := fun i hi => by
      rw [Nat.add_assoc, Nat.add_comm 1 i]
      exact hfree (i + 1) (by omega)
    have hpicks : round + 1 + d + 1 = round + (d + 1) + 1 := by omega
    rcases h.round_cases round with hround | hround | hround | hround
    · exact ⟨_, loop_sends hround (d + 1) ticks, show round + 1 ≤ _ by omega⟩
    · exact absurd hround (hfree 0 (Nat.succ_pos d))
    · rw [loop_stalls hround hticks, ← hpicks]
      exact ih hlater hrest hticks
    · rw [loop_ticks hround]
      by_cases hnext : ticks + 1 < n + 1
      · rw [if_pos hnext, ← hpicks]
        exact ih hlater hrest hnext
      · rw [if_neg hnext]
        exact ⟨_, rfl, show round + 1 ≤ _ by omega⟩

/-- The loop ends after the ticks that are left where no round stalls or hangs. -/
theorem loop_returns_of_ticks {round ticks d : ℕ} (hnone : ∀ i, i ≤ d → ¬ h.Stalls (round + i) ∧ ¬ h.Hangs (round + i))
    (hticks : ticks + d = n) : ∃ r, h.loop (d + 1) round ticks = some r ∧ r.picks ≤ round + d + 1 := by
  induction d generalizing round ticks with
  | zero =>
    rcases h.round_cases round with hround | hround | hround | hround
    · exact ⟨_, loop_sends hround 0 ticks, Nat.le_refl _⟩
    · exact absurd hround (hnone 0 (Nat.le_refl 0)).2
    · exact absurd hround (hnone 0 (Nat.le_refl 0)).1
    · rw [loop_ticks hround, if_neg (by omega)]
      exact ⟨_, rfl, Nat.le_refl _⟩
  | succ d ih =>
    rcases h.round_cases round with hround | hround | hround | hround
    · exact ⟨_, loop_sends hround (d + 1) ticks, show round + 1 ≤ _ by omega⟩
    · exact absurd hround (hnone 0 (Nat.zero_le _)).2
    · exact absurd hround (hnone 0 (Nat.zero_le _)).1
    · rw [loop_ticks hround, if_pos (by omega)]
      have hlater : ∀ i, i ≤ d → ¬ h.Stalls (round + 1 + i) ∧ ¬ h.Hangs (round + 1 + i) := fun i hi => by
        rw [Nat.add_assoc, Nat.add_comm 1 i]
        exact hnone (i + 1) (by omega)
      obtain ⟨r, hr, hpicks⟩ := ih hlater (show ticks + 1 + d = n by omega)
      exact ⟨r, hr, by omega⟩

/-- A loop that ends has met no round that hangs, unless one has ended it before. -/
theorem loop_free {fuel round ticks : ℕ} {r : HookResult n} (hr : h.loop fuel round ticks = some r) {i : ℕ}
    (hlow : round ≤ i) (hhigh : i < r.picks) : ¬ h.Hangs i := by
  induction fuel generalizing round ticks with
  | zero => exact absurd hr (by simp [loop])
  | succ fuel ih =>
    rcases Nat.eq_or_lt_of_le hlow with rfl | hlater
    · intro hhangs
      rw [loop_hangs hhangs] at hr
      exact absurd hr (by simp)
    · unfold loop at hr
      have hlast (sent : Option (Fin (n + 1))) (hend : some ⟨round + 1, sent⟩ = some r) : ¬ h.Hangs i := by
        obtain rfl := Option.some.inj hend
        have hhigh : i < round + 1 := hhigh
        omega
      split at hr
      · split at hr
        · split at hr
          · exact ih hr hlater
          · exact hlast _ hr
        · split at hr
          · exact hlast _ hr
          · exact absurd hr (by simp)
      · split at hr
        · exact ih hr hlater
        · exact hlast _ hr

/-- Where no round sends, the loop takes a pick for each tick that is left, and one more for a round that stalls. -/
theorem loop_picks {fuel round ticks : ℕ} {r : HookResult n} (hr : h.loop fuel round ticks = some r)
    (hticks : ticks < n + 1) (hnone : ∀ i, round ≤ i → i < r.picks → ¬ h.Sends i) :
    round + (n + 1 - ticks) ≤ r.picks ∧
      ∀ i, round ≤ i → i < r.picks → h.Stalls i → round + (n + 1 - ticks) < r.picks := by
  induction fuel generalizing round ticks with
  | zero => exact absurd hr (by simp [loop])
  | succ fuel ih =>
    have hlater : ∀ i, round + 1 ≤ i → i < r.picks → ¬ h.Sends i := fun i hi => hnone i (by omega)
    rcases h.round_cases round with hround | hround | hround | hround
    · rw [loop_sends hround] at hr
      obtain rfl := Option.some.inj hr
      exact absurd hround (hnone round (Nat.le_refl round) (Nat.lt_succ_self round))
    · rw [loop_hangs hround] at hr
      exact absurd hr (by simp)
    · rw [loop_stalls hround hticks] at hr
      obtain ⟨hpicks, -⟩ := ih hr hticks hlater
      exact ⟨by omega, fun i _ _ _ => by omega⟩
    · rw [loop_ticks hround] at hr
      have hfree (i : ℕ) (hi : h.Stalls i) : i ≠ round := by
        rintro rfl
        exact absurd hi.1 (by omega)
      by_cases hnext : ticks + 1 < n + 1
      · rw [if_pos hnext] at hr
        obtain ⟨hpicks, hstall⟩ := ih hr hnext hlater
        refine ⟨by omega, fun i hlow hhigh hi => ?_⟩
        have hne := hfree i hi
        have hmore := hstall i (by omega) hhigh hi
        omega
      · rw [if_neg hnext] at hr
        obtain rfl := Option.some.inj hr
        refine ⟨show _ ≤ round + 1 by omega, fun i hlow hhigh hi => ?_⟩
        have hhigh : i < round + 1 := hhigh
        exact absurd (show i = round by omega) (hfree i hi)

end HookRounds

/-- The timer theorem: the loop returns in time exactly when one of its first picks, as many as there are CPUs, sends
the interrupt and none before it hangs, or none of them stalls or hangs. -/
theorem attempToRunScheduler_returns_iff {n : ℕ} (h : HookRounds n) :
    h.Returns ↔ (∃ i, i < n + 1 ∧ h.Sends i ∧ ∀ j < i, ¬ h.Hangs j) ∨
      ∀ i, i < n + 1 → ¬ h.Stalls i ∧ ¬ h.Hangs i := by
  constructor
  · rintro ⟨fuel, r, hr, hpicks⟩
    by_cases hsome : ∃ i, i < r.picks ∧ h.Sends i
    · obtain ⟨i, hi, hsends⟩ := hsome
      exact Or.inl ⟨i, by omega, hsends, fun j hj => HookRounds.loop_free hr (Nat.zero_le j) (by omega)⟩
    · push Not at hsome
      obtain ⟨hall, hmore⟩ := HookRounds.loop_picks hr (Nat.succ_pos n) fun i _ hi => hsome i hi
      refine Or.inr fun i hi => ⟨fun hstall => ?_, HookRounds.loop_free hr (Nat.zero_le i) (by omega)⟩
      have hlate := hmore i (Nat.zero_le i) (by omega) hstall
      omega
  · rintro (⟨i, hi, hsends, hfree⟩ | hnone)
    · rw [← Nat.zero_add i] at hsends
      have hbefore : ∀ j < i, ¬ h.Hangs (0 + j) := fun j hj => by
        rw [Nat.zero_add]
        exact hfree j hj
      obtain ⟨r, hr, hpicks⟩ := HookRounds.loop_returns_of_sends hsends hbefore (Nat.succ_pos n)
      exact ⟨i + 1, r, hr, by omega⟩
    · have hfirst : ∀ i, i ≤ n → ¬ h.Stalls (0 + i) ∧ ¬ h.Hangs (0 + i) := fun i hi => by
        rw [Nat.zero_add]
        exact hnone i (by omega)
      obtain ⟨r, hr, hpicks⟩ := HookRounds.loop_returns_of_ticks hfirst (Nat.zero_add n)
      exact ⟨n + 1, r, hr, by omega⟩

/-- The only CPU, with a thread in its queue, interrupted while its lock is held. -/
def lockedHook : HookRounds 0 where
  current := 0
  pick _ := 0
  state _ := ⟨fun _ => ⟨some 0, fun i => if i = 0 then [1] else []⟩, fun t => ⟨0, false, 0, t, none,
    switchToUsermode 0 0 0 0 0 0⟩, [0, 1], fun _ => [], fun _ _ => none⟩
  locked _ := true
  started _ := true
  held _ l := decide (l = .cpu)
  replayed _ := true

/-- The interrupt never returns to what holds the lock. -/
theorem attempToRunScheduler_hangs : (∀ fuel, lockedHook.loop fuel 0 0 = none) ∧ ¬ lockedHook.Returns := by
  have hstalls (round : ℕ) : lockedHook.Stalls round := ⟨show 0 < lockedHook.load 0 by decide, rfl, rfl⟩
  have hnever (fuel round : ℕ) : lockedHook.loop fuel round 0 = none := by
    induction fuel generalizing round with
    | zero => rfl
    | succ fuel ih =>
      rw [HookRounds.loop_stalls (hstalls round) (Nat.succ_pos 0)]
      exact ih (round + 1)
  refine ⟨fun fuel => hnever fuel 0, ?_⟩
  rintro ⟨fuel, r, hr, -⟩
  rw [hnever] at hr
  exact absurd hr (by simp)

end Cthulhu
