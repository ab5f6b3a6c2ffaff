import Mathlib.Data.List.Basic

/-!
# Runs of guarded operations

A run applies a list of operations to a state. Interleavings are runs too, the list naming
who moves next. A guard restricts which operation may be applied in which state, and the
invariant rule asks only about one guarded step.
-/

namespace Cthulhu.Lib

variable {σ α : Type*}

/-- The state after the operations of a run. -/
def run (step : σ → α → σ) (s : σ) (ops : List α) : σ := ops.foldl step s

/-- Operations that leave a state as it is do so one after the other. -/
theorem run_fixed {step : σ → α → σ} {s : σ} {ops : List α} (h : ∀ a ∈ ops, step s a = s) : run step s ops = s := by
  induction ops with
  | nil => rfl
  | cons a rest ih =>
    rw [List.forall_mem_cons] at h
    rw [run, List.foldl_cons, h.1]
    exact ih h.2

/-- Every operation of the run meets the guard in the state it is applied to. -/
def Guarded (step : σ → α → σ) (guard : σ → α → Prop) : σ → List α → Prop
  | _, [] => True
  | s, a :: rest => guard s a ∧ Guarded step guard (step s a) rest

/-- A guard that can be decided can be decided along a run. -/
instance Guarded.decidable {step : σ → α → σ} {guard : σ → α → Prop} [∀ s a, Decidable (guard s a)] :
    ∀ (s : σ) (ops : List α), Decidable (Guarded step guard s ops)
  | _, [] => inferInstanceAs (Decidable True)
  | s, a :: rest =>
    have : Decidable (Guarded step guard (step s a) rest) := Guarded.decidable (step s a) rest
    inferInstanceAs (Decidable (guard s a ∧ Guarded step guard (step s a) rest))

/-- An invariant that every guarded step keeps holds after every guarded run. -/
theorem Guarded.invariant {step : σ → α → σ} {guard : σ → α → Prop} (inv : σ → Prop)
    (hstep : ∀ s a, inv s → guard s a → inv (step s a)) {s : σ} {ops : List α}
    (hops : Guarded step guard s ops) (hinit : inv s) : inv (run step s ops) := by
  induction ops generalizing s with
  | nil => exact hinit
  | cons a rest ih => exact ih hops.2 (hstep s a hinit hops.1)

/-- What holds of every operation of the list may be added to the guard. -/
theorem Guarded.and_mem {step : σ → α → σ} {guard : σ → α → Prop} {p : α → Prop} {s : σ} {ops : List α}
    (hops : Guarded step guard s ops) (hp : ∀ a ∈ ops, p a) :
    Guarded step (fun s a => p a ∧ guard s a) s ops := by
  induction ops generalizing s with
  | nil => exact True.intro
  | cons a rest ih =>
    rw [List.forall_mem_cons] at hp
    exact ⟨⟨hp.1, hops.1⟩, ih hops.2 hp.2⟩

/-- A guard that every operation meets in every state is met along every run. -/
theorem Guarded.of_forall {step : σ → α → σ} {guard : σ → α → Prop} (h : ∀ s a, guard s a) (s : σ) (ops : List α) :
    Guarded step guard s ops := by
  induction ops generalizing s with
  | nil => exact True.intro
  | cons a rest ih => exact ⟨h s a, ih (step s a)⟩

/-- A guard that no operation can fail is no restriction. -/
theorem Guarded.trivial (step : σ → α → σ) (s : σ) (ops : List α) : Guarded step (fun _ _ => True) s ops :=
  .of_forall (fun _ _ => True.intro) s ops

/-- Guarded runs compose. -/
theorem Guarded.append {step : σ → α → σ} {guard : σ → α → Prop} {s : σ} {ops more : List α}
    (hops : Guarded step guard s ops) (hmore : Guarded step guard (run step s ops) more) :
    Guarded step guard s (ops ++ more) := by
  induction ops generalizing s with
  | nil => exact hmore
  | cons a rest ih => exact ⟨hops.1, ih hops.2 hmore⟩

/-- The parts of a guarded run are guarded. -/
theorem Guarded.split {step : σ → α → σ} {guard : σ → α → Prop} {s : σ} {ops more : List α}
    (hops : Guarded step guard s (ops ++ more)) : Guarded step guard s ops ∧ Guarded step guard (run step s ops) more := by
  induction ops generalizing s with
  | nil => exact ⟨True.intro, hops⟩
  | cons a rest ih =>
    obtain ⟨hrest, hmore⟩ := ih hops.2
    exact ⟨⟨hops.1, hrest⟩, hmore⟩

section Stop

variable {σ α ε : Type*} (step : σ → α → σ) (guard : σ → α → Prop) (inv : σ → Prop) (stopped : σ → Prop)
  (log : σ → List ε) (unit : List ε) (ends : σ → Prop → List ε → Prop)

/-- The log of a loop that can stop early. A round that goes on logs `unit` and meets its guard; a
round that stops logs something that `ends` relates to its guard. Rounds after the stop do nothing,
so the whole loop meets its guards exactly when the round that stopped did. -/
theorem run_log_of_stop (hstay : ∀ s a, stopped s → step s a = s ∧ guard s a) (hinv : ∀ s a, inv s → inv (step s a))
    (hstep : ∀ s a, inv s → ¬ stopped s →
      (¬ stopped (step s a) ∧ guard s a ∧ log (step s a) = log s ++ unit) ∨
        (stopped (step s a) ∧ ∃ tail, ends (step s a) (guard s a) tail ∧ log (step s a) = log s ++ tail))
    {s : σ} (hs : inv s) (hgo : ¬ stopped s) (ops : List α) :
    ∃ k, (¬ stopped (run step s ops) ∧ Guarded step guard s ops ∧
        log (run step s ops) = log s ++ (List.replicate k unit).flatten) ∨
      (stopped (run step s ops) ∧ ∃ tail, ends (run step s ops) (Guarded step guard s ops) tail ∧
        log (run step s ops) = log s ++ ((List.replicate k unit).flatten ++ tail)) := by
  have hrest (s : σ) (hstop : stopped s) (ops : List α) : run step s ops = s ∧ Guarded step guard s ops := by
    induction ops with
    | nil => exact ⟨rfl, trivial⟩
    | cons a ops ih =>
      obtain ⟨hsame, hguard⟩ := hstay s a hstop
      have hhead : run step s (a :: ops) = run step (step s a) ops := rfl
      rw [hhead, hsame]
      exact ⟨ih.1, hguard, by rw [hsame]; exact ih.2⟩
  induction ops generalizing s with
  | nil => exact ⟨0, Or.inl ⟨hgo, trivial, (List.append_nil _).symm⟩⟩
  | cons a ops ih =>
    have hrun : run step s (a :: ops) = run step (step s a) ops := rfl
    rw [hrun]
    rcases hstep s a hs hgo with ⟨hgo', hguard, hlog⟩ | ⟨hstop, tail, hends, hlog⟩
    · have hguarded : Guarded step guard s (a :: ops) = Guarded step guard (step s a) ops :=
        propext ⟨fun h => h.2, fun h => ⟨hguard, h⟩⟩
      rw [hguarded]
      obtain ⟨k, hcases⟩ := ih (hinv s a hs) hgo'
      have hunit (rest : List ε) : log s ++ unit ++ ((List.replicate k unit).flatten ++ rest) =
          log s ++ ((List.replicate (k + 1) unit).flatten ++ rest) := by
        rw [List.replicate_succ, List.flatten_cons, List.append_assoc, List.append_assoc]
      refine ⟨k + 1, hcases.imp ?_ ?_⟩
      · rintro ⟨hend, hall, hfinal⟩
        refine ⟨hend, hall, ?_⟩
        rw [hfinal, hlog]
        simpa using hunit []
      · rintro ⟨hend, tail, hall, hfinal⟩
        exact ⟨hend, tail, hall, by rw [hfinal, hlog, hunit]⟩
    · obtain ⟨hsame, hall⟩ := hrest (step s a) hstop ops
      have hguarded : Guarded step guard s (a :: ops) = guard s a :=
        propext ⟨fun h => h.1, fun h => ⟨h, hall⟩⟩
      rw [hsame, hguarded]
      exact ⟨0, Or.inr ⟨hstop, tail, hends, hlog⟩⟩

end Stop

end Cthulhu.Lib
