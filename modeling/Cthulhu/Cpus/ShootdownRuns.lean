import Cthulhu.Cpus.Shootdown

/-!
# When a TLB shootdown is sound

The initiator reaches its waiting loop in every run that lets it move, unless its own
invalidation loop never ends. With more than one CPU it is then stuck: it was counted once, and
nobody else was sent a message. With one CPU it returns, having invalidated the addresses its loop
went through.
-/

namespace Cthulhu

open Lib

namespace Shootdown

variable {n : ℕ} {s : Shootdown n} {c : Fin n} {a : ShootdownArgs} {page : ℕ}

/-- The initiator can get to the place. -/
def Reaches (s : Shootdown n) (c : Fin n) (pc : ShootdownPc) : Prop :=
  ∃ moves, ((run Shootdown.step s moves).cpu c).pc = pc

/-- From where the next step goes, the initiator gets on. -/
theorem Progress.reaches_next (h : s.Progress c a page) (next : ShootdownPc) {target : ShootdownPc}
    (hnext : ((s.mainStep c).cpu c).pc = next)
    (hrest : ∀ s' : Shootdown n, s'.Progress c a page → (s'.cpu c).pc = next → s'.Reaches c target) :
    s.Reaches c target := by
  obtain ⟨moves, hmoves⟩ := hrest (s.mainStep c) h.main hnext
  exact ⟨.main c :: moves, hmoves⟩

/-- From the count on, the handler returns and the initiator waits. -/
theorem Progress.reaches_of_count (h : s.Progress c a page) {active : Bool}
    (hpc : (s.cpu c).pc = .receive a (.count active)) : s.Reaches c (.wait a) := by
  have hown := h.own
  rw [hpc] at hown
  refine h.reaches_next (.receive a .clear) ?_ fun s₁ h₁ hpc₁ => ?_
  · rw [h.mainStep_eq hpc, shootdownStep, receiveStep_count hown.2.2.1]
    simp
  refine h₁.reaches_next (.unlockIpi a) ?_ fun s₂ h₂ hpc₂ => ?_
  · rw [h₁.mainStep_eq hpc₁, shootdownStep]
    simp [receiveStep]
  refine h₂.reaches_next (.wait a) ?_ fun s₃ h₃ hpc₃ => ⟨[], hpc₃⟩
  rw [h₂.mainStep_eq hpc₂, shootdownStep]
  simp

/-- A loop that has an end is left, and the initiator waits. -/
theorem Progress.reaches_of_invalidate {stop : ℕ} (hstop : ¬ nthPage a.start stop < add64 a.start a.amount) {k : ℕ}
    (hk : k ≤ stop) (h : s.Progress c a page) (hpc : (s.cpu c).pc = .receive a (.invalidate (nthPage a.start k))) :
    s.Reaches c (.wait a) := by
  -- the number of rounds left is the measure
  induction hleft : stop - k generalizing s k with
  | zero =>
    obtain rfl : k = stop := by omega
    have hown := h.own
    rw [hpc] at hown
    refine h.reaches_next (.receive a (.count true)) ?_ fun s₁ h₁ hpc₁ => h₁.reaches_of_count hpc₁
    rw [h.mainStep_eq hpc, shootdownStep, receiveStep_invalidate hown.2.2.2.1, if_neg hstop]
    simp
  | succ left ih =>
    have hown := h.own
    rw [hpc] at hown
    by_cases hround : nthPage a.start k < add64 a.start a.amount
    · refine h.reaches_next (.receive a (.invalidate (nthPage a.start (k + 1)))) ?_ fun s₁ h₁ hpc₁ =>
        ih (by omega) h₁ hpc₁ (by omega)
      rw [h.mainStep_eq hpc, shootdownStep, receiveStep_invalidate hown.2.2.2.1, if_pos hround]
      simp [nthPage]
    · refine h.reaches_next (.receive a (.count true)) ?_ fun s₁ h₁ hpc₁ => h₁.reaches_of_count hpc₁
      rw [h.mainStep_eq hpc, shootdownStep, receiveStep_invalidate hown.2.2.2.1, if_neg hround]
      simp

/-- From the entry of its handler the initiator comes to wait, unless its loop never ends. -/
theorem Progress.reaches_of_entry (hends : ¬ (page = a.cr3 ∧ a.Endless)) (h : s.Progress c a page)
    (hpc : (s.cpu c).pc = .receive a .entry) : s.Reaches c (.wait a) := by
  have hown := h.own
  rw [hpc] at hown
  have hpage : (s.cpu c).activePage = page := h.page (by simp [hpc])
  by_cases hactive : page = a.cr3
  · obtain ⟨k, hk⟩ := not_forall.mp fun hendless => hends ⟨hactive, hendless⟩
    obtain ⟨stop, hstop⟩ := not_forall.mp hk
    rw [Classical.not_imp] at hstop
    refine h.reaches_next (.receive a (.invalidate (nthPage a.start 0))) ?_ fun s₁ h₁ hpc₁ =>
      Progress.reaches_of_invalidate hstop.2 (Nat.zero_le stop) h₁ hpc₁
    rw [h.mainStep_eq hpc, shootdownStep, receiveStep_entry hown.2.2.2.1, if_pos (hpage.trans hactive)]
    simp [nthPage]
  · refine h.reaches_next (.receive a (.count false)) ?_ fun s₁ h₁ hpc₁ => h₁.reaches_of_count hpc₁
    rw [h.mainStep_eq hpc, shootdownStep, receiveStep_entry hown.2.2.2.1,
      if_neg fun heq => hactive (hpage.symm.trans heq)]
    simp

/-- A shootdown comes to wait, unless its loop never ends. -/
theorem Progress.reaches_wait (hends : ¬ (page = a.cr3 ∧ a.Endless)) (h : s.Progress c a page)
    (hpc : (s.cpu c).pc = .lockTlb a) : s.Reaches c (.wait a) := by
  have hown := h.own
  rw [hpc] at hown
  refine h.reaches_next (.setProcessor a) ?_ fun s₁ h₁ hpc₁ => ?_
  · rw [h.mainStep_eq hpc, shootdownStep, hown.2.2.1]
    simp
  refine h₁.reaches_next (.lockIpi a) ?_ fun s₂ h₂ hpc₂ => ?_
  · rw [h₁.mainStep_eq hpc₁, shootdownStep]
    simp
  refine h₂.reaches_next (.write a) ?_ fun s₃ h₃ hpc₃ => ?_
  · have hown₂ := h₂.own
    rw [hpc₂] at hown₂
    rw [h₂.mainStep_eq hpc₂, shootdownStep, hown₂.2.2.2.1]
    simp
  refine h₃.reaches_next (.receive a .entry) ?_ fun s₄ h₄ hpc₄ => h₄.reaches_of_entry hends hpc₄
  rw [h₃.mainStep_eq hpc₃, shootdownStep]
  simp

end Shootdown

/-- When a TLB shootdown by a started CPU, called between shootdowns, is sound along every run. It
is exactly when the CPU is the only one and, if the range is in its own address space, some round of
the invalidation loop falls in every page of the range; or when that loop never ends, so that the
call does not return either. -/
theorem tlbShootdown_sound_iff {n : ℕ} (s : Shootdown n) (hidle : s.Idle) (c : Fin n)
    (hstarted : (s.cpu c).started = true) (a : ShootdownArgs) :
    (∀ moves, (run Shootdown.step (s.call c a) moves).Sound c a) ↔
      ((s.cpu c).activePage = a.cr3 ∧ a.Endless) ∨ (n = 1 ∧ ((s.cpu c).activePage = a.cr3 → a.Covered)) := by
  have hcall := hidle.progress hstarted a
  have hpc : ((s.call c a).cpu c).pc = .lockTlb a := if_pos rfl
  constructor
  · intro hsound
    by_cases hends : (s.cpu c).activePage = a.cr3 ∧ a.Endless
    · exact Or.inl hends
    · right
      obtain ⟨moves, hwait⟩ := hcall.reaches_wait hends hpc
      have hprogress := hcall.run moves
      have hown := hprogress.own
      rw [hwait] at hown
      obtain ⟨-, hcounter, hserved⟩ := hown
      have hn : n = 1 := by
        by_contra hmany
        refine (hsound moves).2 ⟨hwait, ?_, hprogress.quiet⟩
        rw [hcounter]
        exact fun heq => hmany heq.symm
      refine ⟨hn, fun hactive => ?_⟩
      have hpage : ((run Shootdown.step (s.call c a) moves).cpu c).activePage = a.cr3 :=
        (hprogress.page (by simp [hwait])).trans hactive
      -- one more step returns
      have hstep : (run Shootdown.step (s.call c a) moves).step (.main c) =
          (run Shootdown.step (s.call c a) moves).goto c (.done a) := by
        change (run Shootdown.step (s.call c a) moves).mainStep c = _
        rw [hprogress.mainStep_eq hwait, Shootdown.shootdownStep, if_pos (hcounter.trans hn.symm)]
      have hmore : run Shootdown.step (s.call c a) (moves ++ [.main c]) =
          (run Shootdown.step (s.call c a) moves).goto c (.done a) := by
        rw [← hstep]
        exact List.foldl_append
      have hreturned := (hsound (moves ++ [.main c])).1
      rw [hmore, Shootdown.goto_self] at hreturned
      have hinvalidated := hreturned rfl c (by simpa using hprogress.started) (by simpa using hpage)
      rw [Shootdown.goto_self] at hinvalidated
      exact (Shootdown.Served.invalidated_iff hserved hpage).mp hinvalidated
  · intro hcond moves
    exact (hcall.run moves).sound hcond

/-- CPUs between shootdowns, all of them started and in one address space. -/
def quietCpus (n : ℕ) : Shootdown n where
  tlbLock := false
  processor := none
  counter := 0
  cpu := fun _ => ⟨true, 0x1000, false, ⟨.other 5, 0, 0, 0⟩, false, false, none, .idle, []⟩

/-- A single CPU shoots down one page of its own address space. -/
theorem tlbShootdown_sound_single : (quietCpus 1).Idle ∧
    ∀ moves, (run Shootdown.step ((quietCpus 1).call 0 ⟨0x1000, 0x400000, 0x1000⟩) moves).Sound 0
      ⟨0x1000, 0x400000, 0x1000⟩ := by
  have hidle : (quietCpus 1).Idle := ⟨rfl, rfl, fun _ => ⟨rfl, rfl, rfl, rfl⟩⟩
  refine ⟨hidle, (tlbShootdown_sound_iff (quietCpus 1) hidle 0 rfl _).mpr
    (Or.inr ⟨rfl, fun _ b hlow hhigh _ => ⟨0, fun j hj => ?_, ?_⟩⟩)⟩
  · obtain rfl := Nat.le_zero.mp hj
    decide
  · have hpage : align (nthPage 0x400000 0) = align b := by
      simp only at hlow hhigh
      unfold nthPage align
      omega
    exact hpage

/-- With two CPUs the initiator waits for an acknowledgement of a message that was never sent. -/
theorem tlbShootdown_stuck :
    (run Shootdown.step ((quietCpus 2).call 0 ⟨0x1000, 0x400000, 0x1000⟩) (List.replicate 11 (.main 0))).Stuck 0
        ⟨0x1000, 0x400000, 0x1000⟩ ∧
      ¬ ∀ moves, (run Shootdown.step ((quietCpus 2).call 0 ⟨0x1000, 0x400000, 0x1000⟩) moves).Sound 0
        ⟨0x1000, 0x400000, 0x1000⟩ := by
  have hstuck : (run Shootdown.step ((quietCpus 2).call 0 ⟨0x1000, 0x400000, 0x1000⟩)
      (List.replicate 11 (.main 0))).Stuck 0 ⟨0x1000, 0x400000, 0x1000⟩ := by
    unfold Shootdown.Stuck
    decide
  exact ⟨hstuck, fun hsound => (hsound _).2 hstuck⟩

end Cthulhu
