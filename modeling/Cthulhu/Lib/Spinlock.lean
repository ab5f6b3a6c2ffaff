import Mathlib.Data.List.Nodup
import Mathlib.Logic.Relation
import Mathlib.Order.Basic
import Cthulhu.Lib.Run

/-!
# Programs over spinlocks

Actors run programs over a shared memory and a set of spinlocks. A program is a tree: it takes or
releases a lock, announces the stage it is in, or changes the memory and goes on with what it read
there. A lock that is held is not taken, and the actor tries again at its next step.

A discipline says which lock may be taken in which stage with which locks held. Programs that
follow it know the locks they hold, in every interleaving, so a statement about who waits for whom
is one about the discipline alone. A rank that grows along the waiting excludes every deadlock.
-/

namespace Cthulhu.Lib

/-- What is left of a program. -/
inductive Code (L G σ : Type*)
  | done
  | lock (l : L) (next : Code L G σ)
  | unlock (l : L) (next : Code L G σ)
  | mark (g : G) (next : Code L G σ)
  | act (change : σ → σ) (next : σ → Code L G σ)

section Programs

variable {L G σ : Type*}

namespace Code

/-- The lock that a program is about to take. -/
def wants : Code L G σ → Option L
  | .lock l _ => some l
  | _ => none

/-- What a program does to the memory if no other one runs. -/
def exec : Code L G σ → σ → σ
  | .done, m => m
  | .lock _ next, m => next.exec m
  | .unlock _ next, m => next.exec m
  | .mark _ next, m => next.exec m
  | .act change next, m => (next m).exec (change m)

/-- A program follows a discipline from a stage with some locks held, latest first: it takes only the
locks that it may, releases only locks that it holds, and holds none at its end. Of a stage that it
cannot enter nothing is asked. -/
def Follows [DecidableEq L] (may : G → List L → L → Prop) (can : G → Prop) : G → List L → Code L G σ → Prop
  | _, held, .done => held = []
  | g, held, .lock l next => may g held l ∧ next.Follows may can g (l :: held)
  | g, held, .unlock l next => l ∈ held ∧ next.Follows may can g (held.erase l)
  | _, held, .mark g next => can g → next.Follows may can g held
  | g, held, .act _ next => ∀ m, (next m).Follows may can g held

end Code

end Programs

/-- The memory, who holds which lock, and the stage and the rest of the program of every actor. -/
structure Spin (ι L G σ : Type*) where
  mem : σ
  held : L → Option ι
  stage : ι → G
  code : ι → Code L G σ

namespace Spin

variable {ι L G σ : Type*}

/-- An actor is about to take a lock that another one, or itself, holds. -/
def Waits (s : Spin ι L G σ) (i j : ι) : Prop := ∃ l, (s.code i).wants = some l ∧ s.held l = some j

/-- Nobody is about to take a lock that it holds, and no actors wait for each other in a cycle. -/
structure DeadlockFree (s : Spin ι L G σ) : Prop where
  relock : ∀ i, ¬ s.Waits i i
  cycle : ∀ i, ¬ Relation.TransGen s.Waits i i

/-- A rank that grows along the waiting excludes deadlocks. -/
theorem DeadlockFree.of_rank {s : Spin ι L G σ} (rank : ι → ℕ) (h : ∀ i j, s.Waits i j → rank i < rank j) :
    s.DeadlockFree := by
  refine ⟨fun i hwaits => Nat.lt_irrefl _ (h i i hwaits), fun i hcycle => ?_⟩
  have hlt : ∀ j, Relation.TransGen s.Waits i j → rank i < rank j := by
    intro j hpath
    induction hpath with
    | single hwaits => exact h _ _ hwaits
    | tail _ hwaits ih => exact Nat.lt_trans ih (h _ _ hwaits)
  exact Nat.lt_irrefl _ (hlt i hcycle)

/-- The locks that the actors hold, as their programs know them. -/
structure Holds [DecidableEq L] (may : ι → G → List L → L → Prop) (can : ι → G → Prop) (s : Spin ι L G σ) (locks : ι → List L) :
    Prop where
  nodup : ∀ i, (locks i).Nodup
  held : ∀ l i, s.held l = some i ↔ l ∈ locks i
  follows : ∀ i, (s.code i).Follows (may i) (can i) (s.stage i) (locks i)

variable [DecidableEq L] {may : ι → G → List L → L → Prop} {can : ι → G → Prop} {s : Spin ι L G σ} {locks : ι → List L}

/-- Two actors do not hold the same lock. -/
theorem Holds.unique (h : s.Holds may can locks) {l : L} {i j : ι} (hi : l ∈ locks i) (hj : l ∈ locks j) : i = j :=
  Option.some.inj (((h.held l i).mpr hi).symm.trans ((h.held l j).mpr hj))

/-- An actor may take the lock that it is about to take. -/
theorem Holds.may_of_wants (h : s.Holds may can locks) {i : ι} {l : L} (hwants : (s.code i).wants = some l) :
    may i (s.stage i) (locks i) l := by
  have hfollows := h.follows i
  cases hcode : s.code i with
  | lock l' next =>
    rw [hcode] at hfollows hwants
    obtain rfl := Option.some.inj hwants
    exact hfollows.1
  | _ =>
    rw [hcode] at hwants
    exact absurd hwants (Option.some_ne_none l).symm

variable [DecidableEq ι]

/-- An actor begins a program. -/
def start (s : Spin ι L G σ) (i : ι) (code : Code L G σ) : Spin ι L G σ :=
  { s with code := Function.update s.code i code }

/-- An actor makes one step. -/
def step (s : Spin ι L G σ) (i : ι) : Spin ι L G σ :=
  match s.code i with
  | .done => s
  | .lock l next =>
    if s.held l = none then { s.start i next with held := Function.update s.held l (some i) } else s
  | .unlock l next => { s.start i next with held := Function.update s.held l none }
  | .mark g next => { s.start i next with stage := Function.update s.stage i g }
  | .act change next => { s.start i (next s.mem) with mem := change s.mem }

/-- An actor that has nothing to do may begin a program. -/
theorem Holds.start (h : s.Holds may can locks) {i : ι} (hdone : s.code i = .done) {code : Code L G σ}
    (hcode : code.Follows (may i) (can i) (s.stage i) []) : (s.start i code).Holds may can locks := by
  have hnone : locks i = [] := by
    have hfollows := h.follows i
    rw [hdone] at hfollows
    exact hfollows
  refine ⟨h.nodup, h.held, fun j => ?_⟩
  by_cases hj : j = i
  · subst hj
    simp only [Spin.start, Function.update_self, hnone]
    exact hcode
  · simp only [Spin.start, Function.update_of_ne hj]
    exact h.follows j

/-- An actor that goes on with the same locks keeps the knowledge of all. -/
theorem Holds.next (h : s.Holds may can locks) {i : ι} {next : Code L G σ} {stage : ι → G} {mem : σ}
    (hother : ∀ j, j ≠ i → stage j = s.stage j) (hnext : next.Follows (may i) (can i) (stage i) (locks i)) :
    ({ s.start i next with stage := stage, mem := mem } : Spin ι L G σ).Holds may can locks := by
  refine ⟨h.nodup, h.held, fun j => ?_⟩
  by_cases hj : j = i
  · subst hj
    simp only [Spin.start, Function.update_self]
    exact hnext
  · simp only [Spin.start, Function.update_of_ne hj, hother j hj]
    exact h.follows j

/-- An actor that takes a free lock knows it. -/
theorem Holds.take (h : s.Holds may can locks) {i : ι} {l : L} {next : Code L G σ} (hfree : s.held l = none)
    (hnext : next.Follows (may i) (can i) (s.stage i) (l :: locks i)) :
    ({ s.start i next with held := Function.update s.held l (some i) } : Spin ι L G σ).Holds may can
      (Function.update locks i (l :: locks i)) := by
  have hnew (j : ι) : l ∉ locks j := by
    intro hmem
    exact Option.some_ne_none j (((h.held l j).mpr hmem).symm.trans hfree)
  refine ⟨fun j => ?_, fun m j => ?_, fun j => ?_⟩
  · by_cases hj : j = i
    · subst hj
      rw [Function.update_self]
      exact List.nodup_cons.mpr ⟨hnew j, h.nodup j⟩
    · rw [Function.update_of_ne hj]
      exact h.nodup j
  · dsimp only
    by_cases hm : m = l
    · subst hm
      rw [Function.update_self]
      by_cases hj : j = i
      · subst hj
        simp
      · rw [Function.update_of_ne hj]
        simp [hnew j, Ne.symm hj]
    · rw [Function.update_of_ne hm, h.held]
      by_cases hj : j = i
      · subst hj
        rw [Function.update_self, List.mem_cons, or_iff_right hm]
      · rw [Function.update_of_ne hj]
  · by_cases hj : j = i
    · subst hj
      simp only [Spin.start, Function.update_self, Function.update_self]
      exact hnext
    · simp only [Spin.start, Function.update_of_ne hj]
      exact h.follows j

/-- An actor that releases a lock of its own no longer knows it. -/
theorem Holds.drop (h : s.Holds may can locks) {i : ι} {l : L} {next : Code L G σ} (hmem : l ∈ locks i)
    (hnext : next.Follows (may i) (can i) (s.stage i) ((locks i).erase l)) :
    ({ s.start i next with held := Function.update s.held l none } : Spin ι L G σ).Holds may can
      (Function.update locks i ((locks i).erase l)) := by
  refine ⟨fun j => ?_, fun m j => ?_, fun j => ?_⟩
  · by_cases hj : j = i
    · subst hj
      rw [Function.update_self]
      exact (h.nodup j).erase l
    · rw [Function.update_of_ne hj]
      exact h.nodup j
  · dsimp only
    by_cases hm : m = l
    · subst hm
      rw [Function.update_self]
      by_cases hj : j = i
      · subst hj
        simp [(h.nodup j).mem_erase_iff]
      · rw [Function.update_of_ne hj]
        have hnot : m ∉ locks j := fun hother => hj (h.unique hother hmem)
        simp [hnot]
    · rw [Function.update_of_ne hm, h.held]
      by_cases hj : j = i
      · subst hj
        rw [Function.update_self, List.mem_erase_of_ne hm]
      · rw [Function.update_of_ne hj]
  · by_cases hj : j = i
    · subst hj
      simp only [Spin.start, Function.update_self, Function.update_self]
      exact hnext
    · simp only [Spin.start, Function.update_of_ne hj]
      exact h.follows j

/-- A step of an actor that can enter the stage it announces keeps the knowledge of all. -/
theorem Holds.step (h : s.Holds may can locks) (i : ι) (hcan : ∀ g next, s.code i = .mark g next → can i g) :
    ∃ locks', (s.step i).Holds may can locks' := by
  have hfollows := h.follows i
  unfold Spin.step
  cases hcode : s.code i with
  | done => exact ⟨locks, h⟩
  | lock l next =>
    rw [hcode] at hfollows
    dsimp only
    split
    · rename_i hfree
      exact ⟨_, h.take hfree hfollows.2⟩
    · exact ⟨locks, h⟩
  | unlock l next =>
    rw [hcode] at hfollows
    exact ⟨_, h.drop hfollows.1 hfollows.2⟩
  | mark g next =>
    rw [hcode] at hfollows
    refine ⟨locks, h.next (fun j hj => Function.update_of_ne hj ..) ?_⟩
    rw [Function.update_self]
    exact hfollows (hcan g next hcode)
  | act change next =>
    rw [hcode] at hfollows
    exact ⟨locks, h.next (fun _ _ => rfl) (hfollows s.mem)⟩

end Spin

end Cthulhu.Lib
