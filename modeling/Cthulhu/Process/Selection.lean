import Mathlib.Data.List.Chain
import Mathlib.Data.List.FinRange
import Cthulhu.Process.Scheduler

/-!
# Selection and promotion

What `get_and_update_threads` does to the five queues of a CPU. The loops over the queues are searches for the first
one with an element, and the queue that is looked at last before it takes the promoted thread. The queues are visited
in their order, so that this is the queue with the number before.
-/

namespace Cthulhu

open Lib

/-- The head of the first queue with an element behind `s` moves to the tail of the queue before that one, if there is
any, and nothing else moves. -/
inductive Promoted (queues : Fin 5 → List ℕ) (s : Fin 5) : (Fin 5 → List ℕ) → Prop
  | none (hempty : ∀ j, s < j → queues j = []) : Promoted queues s queues
  | moved (j k : Fin 5) (t : ℕ) (ts : List ℕ) (hbehind : s < j) (hbetween : ∀ i, s < i → i < j → queues i = [])
      (hhead : queues j = t :: ts) (hbefore : k.val + 1 = j.val) :
      Promoted queues s fun i => if i = k then queues k ++ [t] else if i = j then ts else queues i

/-- What selection and promotion owe for the queues of a CPU. -/
structure SelectsAndPromotes (queues : Fin 5 → List ℕ) (result : Option (ℕ × (Fin 5 → List ℕ))) : Prop where
  empty : result = none ↔ ∀ i, queues i = []
  picks : ∀ winner queues', result = some (winner, queues') → ∃ s rest, (∀ i, i < s → queues i = []) ∧
    queues s = winner :: rest ∧ Promoted (Function.update queues s rest) s queues'
  keeps : ∀ winner queues', result = some (winner, queues') →
    ∑ i, (queues i : Multiset ℕ) = winner ::ₘ ∑ i, (queues' i : Multiset ℕ)
  ordered : ∀ winner queues', result = some (winner, queues') → ∀ i, ∃ dropped kept added, queues i = dropped ++ kept ∧
    queues' i = kept ++ added ∧ dropped.length ≤ 1 ∧ added.length ≤ 1

section Searches

variable {queues : Fin 5 → List ℕ}

/-- The loop of `get_and_update_queue` finds no element, or moves the first one to the queue visited before. -/
theorem promote_cases (pushq : Fin 5) (rest : List (Fin 5)) :
    (∀ i ∈ rest, queues i = []) ∧ promote queues pushq rest = queues ∨
      ∃ before j after t ts, rest = before ++ j :: after ∧ (∀ i ∈ before, queues i = []) ∧ queues j = t :: ts ∧
        promote queues pushq rest =
          queuePush (Function.update queues j ts) ((pushq :: before).getLast (List.cons_ne_nil _ _)) t := by
  induction rest generalizing pushq with
  | nil => exact Or.inl ⟨List.forall_mem_nil _, rfl⟩
  | cons tq rest ih =>
    cases htq : queues tq with
    | nil =>
      have hgo : promote queues pushq (tq :: rest) = promote queues tq rest := by rw [promote, htq]
      rcases ih tq with ⟨hempty, hsame⟩ | ⟨before, j, after, t, ts, rfl, hbefore, hj, hmoved⟩
      · exact Or.inl ⟨List.forall_mem_cons.mpr ⟨htq, hempty⟩, hgo.trans hsame⟩
      · refine Or.inr ⟨tq :: before, j, after, t, ts, rfl, List.forall_mem_cons.mpr ⟨htq, hbefore⟩, hj, ?_⟩
        rw [hgo, hmoved, List.getLast_cons (List.cons_ne_nil tq before)]
    | cons t ts =>
      refine Or.inr ⟨[], tq, rest, t, ts, rfl, List.forall_mem_nil _, htq, ?_⟩
      rw [promote, htq]
      rfl

/-- The loop of `get_and_update_threads` stops at the first queue with an element. -/
theorem pickThread_some {order : List (Fin 5)} {winner : ℕ} {queues' : Fin 5 → List ℕ}
    (h : pickThread queues order = some (winner, queues')) :
    ∃ before s after rest, order = before ++ s :: after ∧ (∀ i ∈ before, queues i = []) ∧ queues s = winner :: rest ∧
      queues' = promote (Function.update queues s rest) s after := by
  induction order with
  | nil => exact absurd h (by simp [pickThread])
  | cons tq order ih =>
    cases htq : queues tq with
    | nil =>
      rw [pickThread, htq] at h
      obtain ⟨before, s, after, rest, rfl, hbefore, hs, hq⟩ := ih h
      exact ⟨tq :: before, s, after, rest, rfl, List.forall_mem_cons.mpr ⟨htq, hbefore⟩, hs, hq⟩
    | cons t ts =>
      rw [pickThread, htq] at h
      obtain ⟨rfl, rfl⟩ := Prod.mk.inj (Option.some.inj h)
      exact ⟨[], tq, order, ts, rfl, List.forall_mem_nil _, htq, rfl⟩

/-- The queues before one in their order are those with smaller numbers, and those behind it have larger ones. -/
theorem finRange_split {m : ℕ} {before after : List (Fin m)} {s : Fin m} (h : List.finRange m = before ++ s :: after) :
    (∀ i, i < s → i ∈ before) ∧ (∀ i, s < i → i ∈ after) ∧ ∀ i ∈ after, s < i := by
  have hsorted := List.pairwise_lt_finRange m
  have hall (i : Fin m) : i ∈ before ∨ i = s ∨ i ∈ after := by
    have hmem := List.mem_finRange i
    rwa [h, List.mem_append, List.mem_cons] at hmem
  rw [h, List.pairwise_append, List.pairwise_cons] at hsorted
  obtain ⟨-, ⟨hbehind, -⟩, hacross⟩ := hsorted
  refine ⟨fun i hi => ?_, fun i hi => ?_, hbehind⟩
  · rcases hall i with hmem | rfl | hmem
    · exact hmem
    · exact absurd hi (lt_irrefl _)
    · exact absurd hi (lt_asymm (hbehind i hmem))
  · rcases hall i with hmem | rfl | hmem
    · exact absurd hi (lt_asymm (hacross i hmem s List.mem_cons_self))
    · exact absurd hi (lt_irrefl _)
    · exact hmem

/-- Neighbours in the order of the queues have consecutive numbers. -/
theorem isChain_finRange (m : ℕ) : (List.finRange m).IsChain fun i j => i.val + 1 = j.val := by
  rw [List.isChain_iff_getElem]
  intro i hi
  simp

/-- The promotion moves the head of the first queue with an element behind the one that was popped. -/
theorem promoted_promote {before after : List (Fin 5)} {s : Fin 5} (h : List.finRange 5 = before ++ s :: after) :
    Promoted queues s (promote queues s after) := by
  obtain ⟨-, hbehind, hafter⟩ := finRange_split h
  rcases promote_cases s after with ⟨hempty, hsame⟩ | ⟨between, j, rest, t, ts, rfl, hbetween, hj, hmoved⟩
  · rw [hsame]
    exact .none fun j hj => hempty j (hbehind j hj)
  · have hsplit : List.finRange 5 = (before ++ s :: between) ++ j :: rest := by rw [h, List.append_assoc, List.cons_append]
    obtain ⟨-, -, hrest⟩ := finRange_split hsplit
    have hchain := isChain_finRange 5
    rw [hsplit, List.isChain_append] at hchain
    have hlast : (before ++ s :: between).getLast? = some ((s :: between).getLast (List.cons_ne_nil _ _)) := by
      rw [List.getLast?_append_of_ne_nil _ (List.cons_ne_nil _ _), List.getLast?_eq_getLast_of_ne_nil]
    have hbefore := hchain.2.2 _ hlast j rfl
    have hne : (s :: between).getLast (List.cons_ne_nil _ _) ≠ j := fun heq => by
      rw [heq] at hbefore
      omega
    rw [hmoved]
    have hqueues : queuePush (Function.update queues j ts) ((s :: between).getLast (List.cons_ne_nil _ _)) t =
        fun i => if i = (s :: between).getLast (List.cons_ne_nil _ _) then
          queues ((s :: between).getLast (List.cons_ne_nil _ _)) ++ [t] else if i = j then ts else queues i := by
      funext i
      unfold queuePush
      rw [Function.update_apply, Function.update_apply, Function.update_apply, if_neg hne]
    rw [hqueues]
    refine .moved j _ t ts (hafter j (List.mem_append_right _ List.mem_cons_self)) (fun i hi hij => ?_) hj hbefore
    rcases List.mem_append.mp (hbehind i hi) with hmem | hmem
    · exact hbetween i hmem
    · rcases List.mem_cons.mp hmem with rfl | hmem
      · exact absurd hij (lt_irrefl _)
      · exact absurd hij (lt_asymm (hrest i hmem))

/-- A pick returns the head of the first queue with an element, and promotes a thread behind it. -/
theorem getAndUpdateThreads_some {winner : ℕ} {queues' : Fin 5 → List ℕ}
    (h : getAndUpdateThreads queues = some (winner, queues')) : ∃ s rest, (∀ i, i < s → queues i = []) ∧
      queues s = winner :: rest ∧ Promoted (Function.update queues s rest) s queues' := by
  obtain ⟨before, s, after, rest, horder, hbefore, hs, rfl⟩ := pickThread_some h
  exact ⟨s, rest, fun i hi => hbefore i ((finRange_split horder).1 i hi), hs, promoted_promote horder⟩

/-- A promotion takes at most the head of a queue away and adds at most one thread at its end. -/
theorem Promoted.ordered {queues' : Fin 5 → List ℕ} {s : Fin 5} (h : Promoted queues s queues') (i : Fin 5) :
    ∃ dropped kept added, queues i = dropped ++ kept ∧ queues' i = kept ++ added ∧ dropped.length ≤ 1 ∧
      added.length ≤ 1 ∧ (i ≤ s → dropped = []) := by
  cases h with
  | none => exact ⟨[], queues i, [], rfl, (List.append_nil _).symm, Nat.zero_le 1, Nat.zero_le 1, fun _ => rfl⟩
  | moved j k t ts hbehind hbetween hhead hbefore =>
    have hkj : k ≠ j := fun heq => by
      rw [heq] at hbefore
      omega
    by_cases hk : i = k
    · subst hk
      exact ⟨[], queues i, [t], rfl, if_pos rfl, Nat.zero_le 1, Nat.le_refl 1, fun _ => rfl⟩
    by_cases hj : i = j
    · subst hj
      refine ⟨[t], ts, [], hhead, ?_, Nat.le_refl 1, Nat.zero_le 1, fun hle => absurd hle (not_le.mpr hbehind)⟩
      dsimp only
      rw [if_neg hk, if_pos rfl, List.append_nil]
    · refine ⟨[], queues i, [], rfl, ?_, Nat.zero_le 1, Nat.zero_le 1, fun _ => rfl⟩
      dsimp only
      rw [if_neg hk, if_neg hj, List.append_nil]

end Searches

/-- The selection theorem: for every contents of the five queues the head of the first queue with an element is
returned, the head of the next such queue is promoted, and nothing is lost, duplicated or reordered. -/
theorem getAndUpdateThreads_selects (queues : Fin 5 → List ℕ) : SelectsAndPromotes queues (getAndUpdateThreads queues) where
  empty := by
    unfold getAndUpdateThreads
    rw [pickThread_eq_none]
    exact ⟨fun h i => h i (List.mem_finRange i), fun h i _ => h i⟩
  picks := fun _ _ h => getAndUpdateThreads_some h
  keeps := by
    intro winner queues' h
    ext x
    have hoccurs := occurrences_pickThread h x
    unfold occurrences at hoccurs
    rw [Multiset.count_cons, Multiset.count_sum', Multiset.count_sum']
    simp only [Multiset.coe_count]
    rw [hoccurs]
    simp only [eq_comm]
  ordered := by
    intro winner queues' h i
    obtain ⟨s, rest, -, hs, hpromoted⟩ := getAndUpdateThreads_some h
    obtain ⟨dropped, kept, added, hold, hnew, hdropped, hadded, hfirst⟩ := hpromoted.ordered i
    by_cases hi : i = s
    · subst hi
      obtain rfl := hfirst (le_refl i)
      rw [Function.update_self, List.nil_append] at hold
      exact ⟨[winner], kept, added, by rw [hs, hold]; rfl, hnew, Nat.le_refl 1, hadded⟩
    · rw [Function.update_of_ne hi] at hold
      exact ⟨dropped, kept, added, hold, hnew, hdropped, hadded⟩

/-- With threads in the queues 1, 2 and 4 the head of queue 1 is returned, and the head of queue 2 follows it there. -/
example : (getAndUpdateThreads ![[], [7, 8], [5], [], [6]]).map (fun r => (r.1, List.ofFn r.2)) =
    some (7, [[], [8, 5], [], [], [6]]) := by decide

end Cthulhu
