import Mathlib.Algebra.Group.Int.Defs
import Mathlib.Algebra.Group.Nat.Defs
import Mathlib.Data.Int.Basic
import Cthulhu.Lib.Run

/-!
# Busy waiting

`busy_wait_milis` samples the seconds and the milliseconds of the clock one after the other, while `timer_tick`
interrupts it. A sample is wrong when the tick that carries into the seconds falls between its two reads; where none
does, no wait is too short.
-/

namespace Cthulhu

open Lib

/-- `clock_s` and `clock_ms`. -/
structure Ticker where
  clockS : ℕ
  clockMs : ℕ
  deriving DecidableEq, Repr

/-- The next tick carries into the seconds. -/
def Ticker.carries (c : Ticker) : Prop := 1000 ≤ (c.clockMs + 1) % 2 ^ 64

instance (c : Ticker) : Decidable c.carries := inferInstanceAs (Decidable (1000 ≤ _))

/-- `timer_tick`, as far as the clock goes. -/
def timerTick (c : Ticker) : Ticker :=
  if c.carries then
    { clockS := (c.clockS + 1) % 2 ^ 64, clockMs := (c.clockMs + 1) % 2 ^ 64 - 1000 }
  else
    { c with clockMs := (c.clockMs + 1) % 2 ^ 64 }

/-- Where `busy_wait_milis` stands: before the read that comes next, with its variables. -/
inductive WaitPoint where
  /-- `oclocks = clock_s` comes next. -/
  | oldSeconds
  /-- `oclockms = clock_ms` comes next. -/
  | oldMillis (oclocks : ℕ)
  /-- `clocks = clock_s` comes next. -/
  | seconds (milis oclocks oclockms : ℕ)
  /-- `clockms = clock_ms` comes next. -/
  | millis (milis oclocks oclockms clocks : ℕ)
  | returned
  deriving DecidableEq, Repr

namespace WaitPoint

/-- The condition of the loop. -/
def test (milis oclocks oclockms : ℕ) : WaitPoint := if milis > 0 then seconds milis oclocks oclockms else returned

/-- `totaldiff`, from two differences of 64 bits of which the second one is signed. -/
def totalDiff (clocks oclocks clockms oclockms : ℕ) : ℕ :=
  let diffS := ((clocks : ℤ) - oclocks) % 2 ^ 64
  let diffMs := ((clockms : ℤ) - oclockms).bmod (2 ^ 64)
  ((1000 * diffS + diffMs) % 2 ^ 64).toNat

/-- The next read of `busy_wait_milis milis`, and what it does up to the one after. -/
def read (milis : ℕ) (c : Ticker) : WaitPoint → WaitPoint
  | oldSeconds => oldMillis c.clockS
  | oldMillis oclocks => test milis oclocks c.clockMs
  | seconds left oclocks oclockms => millis left oclocks oclockms c.clockS
  | millis left oclocks oclockms clocks =>
    let totaldiff := totalDiff clocks oclocks c.clockMs oclockms
    if totaldiff > left then returned else test (left - totaldiff) clocks c.clockMs
  | returned => returned

/-- Between the two reads of one sample. -/
def Sampling : WaitPoint → Prop
  | oldMillis _ | millis _ _ _ _ => True
  | _ => False

instance : ∀ p : WaitPoint, Decidable p.Sampling
  | oldMillis _ | millis _ _ _ _ => inferInstanceAs (Decidable True)
  | oldSeconds | seconds _ _ _ | returned => inferInstanceAs (Decidable False)

end WaitPoint

/-- The clock and the wait. -/
structure BusyWait where
  clock : Ticker
  point : WaitPoint
  deriving DecidableEq, Repr

/-- Who moves: the interrupt, or the wait up to its next read. -/
inductive ClockMove where
  | tick
  | read
  deriving DecidableEq, Repr

namespace BusyWait

/-- A call of `busy_wait_milis`. -/
def call (c : Ticker) : BusyWait := ⟨c, .oldSeconds⟩

/-- One move. -/
def step (milis : ℕ) (w : BusyWait) : ClockMove → BusyWait
  | .tick => { w with clock := timerTick w.clock }
  | .read => { w with point := w.point.read milis w.clock }

/-- The move is no tick that carries into the seconds between the two reads of a sample. -/
def Whole (w : BusyWait) (a : ClockMove) : Prop := a = .tick → w.point.Sampling → ¬ w.clock.carries

instance (w : BusyWait) (a : ClockMove) : Decidable (w.Whole a) := inferInstanceAs (Decidable (_ → _ → _))

end BusyWait

/-- A tick adds one to the milliseconds in all. -/
theorem timerTick_total (c : Ticker) :
    (1000 * (timerTick c).clockS + (timerTick c).clockMs) % 2 ^ 64 = (1000 * c.clockS + c.clockMs + 1) % 2 ^ 64 := by
  unfold timerTick
  by_cases hcarry : c.carries
  · rw [if_pos hcarry]
    unfold Ticker.carries at hcarry
    dsimp only
    omega
  · rw [if_neg hcarry]
    dsimp only
    omega

/-- A tick that does not carry leaves the seconds. -/
theorem timerTick_clockS {c : Ticker} (h : ¬ c.carries) : (timerTick c).clockS = c.clockS := by
  rw [timerTick, if_neg h]

namespace WaitPoint

/-- The difference of two samples, one of which is `elapsed` later, is no more than that. -/
theorem totalDiff_le {clocks oclocks clockms oclockms elapsed : ℕ}
    (h : (1000 * clocks + clockms) % 2 ^ 64 = (1000 * oclocks + oclockms + elapsed) % 2 ^ 64) :
    totalDiff clocks oclocks clockms oclockms ≤ elapsed := by
  have hmod : ((1000 * (((clocks : ℤ) - oclocks) % 2 ^ 64) + ((clockms : ℤ) - oclockms).bmod (2 ^ 64)) % 2 ^ 64) =
      (elapsed : ℤ) % 2 ^ 64 := by
    have hbmod := Int.bmod_emod (x := (clockms : ℤ) - oclockms) (m := 2 ^ 64)
    omega
  unfold totalDiff
  dsimp only
  rw [hmod]
  omega

end WaitPoint

namespace BusyWait

variable {milis : ℕ} {w : BusyWait}

/-- `elapsed` ticks after a sample that was read without a carry in between. -/
def Sampled (clocks clockms elapsed : ℕ) (c : Ticker) : Prop :=
  (1000 * c.clockS + c.clockMs) % 2 ^ 64 = (1000 * clocks + clockms + elapsed) % 2 ^ 64

/-- What holds of a wait at each point, `ticks` after its call: what is left and the ticks up to the last sample make up
the whole time. -/
def Sound (milis ticks : ℕ) (w : BusyWait) : Prop :=
  match w.point with
  | .oldSeconds => True
  | .oldMillis oclocks => oclocks = w.clock.clockS
  | .seconds left oclocks oclockms => ∃ elapsed, Sampled oclocks oclockms elapsed w.clock ∧ milis + elapsed ≤ left + ticks
  | .millis left oclocks oclockms clocks =>
    clocks = w.clock.clockS ∧ ∃ elapsed, Sampled oclocks oclockms elapsed w.clock ∧ milis + elapsed ≤ left + ticks
  | .returned => milis ≤ ticks

/-- A sample just read. -/
theorem sampled_now (c : Ticker) : Sampled c.clockS c.clockMs 0 c := rfl

/-- A tick after a sample. -/
theorem Sampled.tick {clocks clockms elapsed : ℕ} {c : Ticker} (h : Sampled clocks clockms elapsed c) :
    Sampled clocks clockms (elapsed + 1) (timerTick c) := by
  have htotal := timerTick_total c
  unfold Sampled at h ⊢
  omega

/-- The condition of the loop, on a sample just read. -/
theorem sound_test {left ticks : ℕ} {c : Ticker} (h : milis ≤ left + ticks) :
    Sound milis ticks ⟨c, .test left c.clockS c.clockMs⟩ := by
  unfold WaitPoint.test
  split
  · exact ⟨0, sampled_now c, h⟩
  · have hnone : milis ≤ ticks := by omega
    exact hnone

/-- A tick keeps it, where it does not carry into a sample. -/
theorem Sound.tick {ticks : ℕ} (h : Sound milis ticks w) (hwhole : w.point.Sampling → ¬ w.clock.carries) :
    Sound milis (ticks + 1) { w with clock := timerTick w.clock } := by
  obtain ⟨c, point⟩ := w
  cases point with
  | oldSeconds => trivial
  | oldMillis oclocks =>
    have hsame : oclocks = (timerTick c).clockS := h.trans (timerTick_clockS (hwhole trivial)).symm
    exact hsame
  | seconds left oclocks oclockms =>
    obtain ⟨elapsed, hsampled, htime⟩ := h
    exact ⟨elapsed + 1, hsampled.tick, by omega⟩
  | millis left oclocks oclockms clocks =>
    obtain ⟨hsame, elapsed, hsampled, htime⟩ := h
    exact ⟨hsame.trans (timerTick_clockS (hwhole trivial)).symm, elapsed + 1, hsampled.tick, by omega⟩
  | returned => exact Nat.le_succ_of_le h

/-- A read keeps it. -/
theorem Sound.read {ticks : ℕ} (h : Sound milis ticks w) :
    Sound milis ticks { w with point := w.point.read milis w.clock } := by
  obtain ⟨c, point⟩ := w
  cases point with
  | oldSeconds => rfl
  | oldMillis oclocks =>
    have hsame : oclocks = c.clockS := h
    rw [hsame]
    exact sound_test (Nat.le_add_right milis ticks)
  | seconds left oclocks oclockms => exact ⟨rfl, h⟩
  | millis left oclocks oclockms clocks =>
    obtain ⟨hsame, elapsed, hsampled, htime⟩ := h
    have hdiff : WaitPoint.totalDiff c.clockS oclocks c.clockMs oclockms ≤ elapsed := WaitPoint.totalDiff_le hsampled
    unfold WaitPoint.read
    dsimp only at hsame ⊢
    rw [hsame]
    split
    · have hreturn : milis ≤ ticks := by omega
      exact hreturn
    · apply sound_test
      omega
  | returned => exact h

/-- One move. -/
theorem Sound.move {ticks : ℕ} (h : Sound milis ticks w) (a : ClockMove) (hwhole : w.Whole a) :
    Sound milis (ticks + [a].count .tick) (w.step milis a) := by
  cases a with
  | tick => exact h.tick (hwhole rfl)
  | read => exact h.read

/-- Every run whose samples are whole. -/
theorem Sound.moves {ticks : ℕ} (h : Sound milis ticks w) {moves : List ClockMove}
    (hmoves : Guarded (step milis) Whole w moves) :
    Sound milis (ticks + moves.count .tick) (run (step milis) w moves) := by
  induction moves generalizing w ticks with
  | nil => exact h
  | cons a rest ih =>
    have hrest := ih (h.move a hmoves.1) hmoves.2
    rw [Nat.add_assoc, ← List.count_append] at hrest
    exact hrest

/-- `busy_wait_milis` does not return early in a run in which no tick that carries into the seconds falls between the
two reads of a sample. -/
theorem returned_not_early (milis : ℕ) (c : Ticker) (moves : List ClockMove)
    (hmoves : Guarded (step milis) Whole (call c) moves) (hreturned : (run (step milis) (call c) moves).point = .returned) :
    milis ≤ moves.count .tick := by
  have hcall : Sound milis 0 (call c) := True.intro
  have hend := Sound.moves hcall hmoves
  rw [Nat.zero_add, Sound, hreturned] at hend
  exact hend

/-- A wait across a second, the tick that carries falling between two samples. -/
theorem returned_not_early_carried :
    1 ≤ ([.read, .read, .tick, .tick, .read, .read] : List ClockMove).count .tick :=
  returned_not_early 1 ⟨5, 999⟩ [.read, .read, .tick, .tick, .read, .read] (by decide) (by decide)

/-- The wait for 20 ms before the second round of `initialize_mp`: the second turns between the first two reads, and
one tick is taken for a second. -/
theorem returned_after_one_tick :
    ∃ moves : List ClockMove, (run (step 20) (call ⟨5, 999⟩) moves).point = .returned ∧ moves.count .tick < 20 :=
  ⟨[.read, .tick, .read, .read, .read], by decide, by decide⟩

end BusyWait

end Cthulhu
