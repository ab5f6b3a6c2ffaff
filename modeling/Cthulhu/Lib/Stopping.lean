import Mathlib.Data.List.Basic

/-!
# Loops that may stop

A loop over a list whose rounds go on with a new state or stop with an error. What such a loop does is said
by the rounds that it gets to, each with the state it starts in.
-/

namespace Cthulhu.Lib

variable {σ ι ε : Type*} (f : σ → ι → Except ε σ)

/-- The loop gets to an element of its list in a state. -/
def GetsTo (a : σ) (l : List ι) (i : ι) (b : σ) : Prop :=
  ∃ before after, l = before ++ i :: after ∧ before.foldlM f a = .ok b

variable {f} {a b c : σ} {i j : ι} {l l' : List ι} {e : ε}

/-- The first round of a loop. -/
theorem foldlM_cons_ok (h : f a i = .ok b) : (i :: l).foldlM f a = l.foldlM f b := by
  rw [List.foldlM_cons, h]
  rfl

/-- A loop whose first round stops. -/
theorem foldlM_cons_error (h : f a i = .error e) : (i :: l).foldlM f a = .error e := by
  rw [List.foldlM_cons, h]
  rfl

/-- The rest of a loop starts where its front ends. -/
theorem foldlM_append_ok (h : l.foldlM f a = .ok b) : (l ++ l').foldlM f a = l'.foldlM f b := by
  rw [List.foldlM_append, h]
  rfl

/-- The loop gets to the first element of its list. -/
theorem GetsTo.head : GetsTo f a (i :: l) i a := ⟨[], l, rfl, rfl⟩

/-- Behind a round that goes on the loop gets to what the rest gets to. -/
theorem GetsTo.tail (h : f a i = .ok b) (hrest : GetsTo f b l j c) : GetsTo f a (i :: l) j c := by
  obtain ⟨before, after, rfl, hbefore⟩ := hrest
  exact ⟨i :: before, after, rfl, (foldlM_cons_ok h).trans hbefore⟩

/-- A loop stops with an error exactly when a round that it gets to does. -/
theorem foldlM_error_iff : l.foldlM f a = .error e ↔ ∃ i b, GetsTo f a l i b ∧ f b i = .error e := by
  constructor
  · intro h
    induction l generalizing a with
    | nil => exact absurd h (by simp [pure, Except.pure])
    | cons i l ih =>
      cases hfirst : f a i with
      | error e' =>
        rw [foldlM_cons_error hfirst] at h
        exact ⟨i, a, .head, hfirst.trans h⟩
      | ok b =>
        rw [foldlM_cons_ok hfirst] at h
        obtain ⟨j, c, hreached, hstop⟩ := ih h
        exact ⟨j, c, .tail hfirst hreached, hstop⟩
  · rintro ⟨i, b, ⟨before, after, rfl, hbefore⟩, hstop⟩
    rw [foldlM_append_ok hbefore, foldlM_cons_error hstop]

/-- A loop gets to elements of its list only. -/
theorem GetsTo.mem (h : GetsTo f a l i b) : i ∈ l := by
  obtain ⟨before, after, rfl, -⟩ := h
  simp

/-- A longer loop gets to what a shorter one gets to. -/
theorem GetsTo.append (h : GetsTo f a l i b) (l' : List ι) : GetsTo f a (l ++ l') i b := by
  obtain ⟨before, after, rfl, hbefore⟩ := h
  exact ⟨before, after ++ l', by simp, hbefore⟩

/-- Loops whose rounds do the same wherever the second one gets to. -/
theorem foldlM_congr {g : σ → ι → Except ε σ} (h : ∀ i b, GetsTo g a l i b → f b i = g b i) :
    l.foldlM f a = l.foldlM g a := by
  induction l generalizing a with
  | nil => rfl
  | cons i l ih =>
    have hfirst := h i a .head
    cases hround : g a i with
    | error e => rw [foldlM_cons_error (hfirst.trans hround), foldlM_cons_error hround]
    | ok b =>
      rw [foldlM_cons_ok (hfirst.trans hround), foldlM_cons_ok hround]
      exact ih fun j c hreached => h j c (.tail hround hreached)

/-- What every round that the loop gets to keeps holds of the state it ends in. -/
theorem foldlM_invariant (inv : σ → Prop) (hstep : ∀ i b c, GetsTo f a l i b → f b i = .ok c → inv b → inv c)
    (h : l.foldlM f a = .ok b) (ha : inv a) : inv b := by
  induction l generalizing a with
  | nil =>
    obtain rfl := Except.ok.inj h
    exact ha
  | cons j l ih =>
    cases hfirst : f a j with
    | error e' =>
      rw [foldlM_cons_error hfirst] at h
      exact absurd h (by simp)
    | ok c =>
      rw [foldlM_cons_ok hfirst] at h
      exact ih (fun i b d hreached => hstep i b d (.tail hfirst hreached)) h (hstep j a c .head hfirst ha)

/-- What every round that the loop gets to keeps holds where the loop gets to. -/
theorem GetsTo.invariant (inv : σ → Prop) (hstep : ∀ i b c, GetsTo f a l i b → f b i = .ok c → inv b → inv c)
    (h : GetsTo f a l i b) (ha : inv a) : inv b := by
  obtain ⟨before, after, rfl, hbefore⟩ := h
  exact foldlM_invariant inv (fun i b c hreached => hstep i b c (hreached.append _)) hbefore ha

/-- What every round keeps, and leaves where it stops, holds at the end of a loop. -/
theorem foldlM_ends (inv : σ → Prop) (stopped : ε → Prop)
    (hstep : ∀ i b c, GetsTo f a l i b → f b i = .ok c → inv b → inv c)
    (hstop : ∀ i b e, GetsTo f a l i b → f b i = .error e → inv b → stopped e) (ha : inv a) :
    (∀ b, l.foldlM f a = .ok b → inv b) ∧ ∀ e, l.foldlM f a = .error e → stopped e := by
  refine ⟨fun b h => foldlM_invariant inv hstep h ha, fun e h => ?_⟩
  obtain ⟨i, b, hreached, herror⟩ := foldlM_error_iff.mp h
  exact hstop i b e hreached herror (hreached.invariant inv hstep ha)

/-- What the rest of a loop gets to, the loop gets to. -/
theorem GetsTo.behind {d : σ} (hbefore : l.foldlM f a = .ok b) (hround : f b i = .ok c) (h : GetsTo f c l' j d) :
    GetsTo f a (l ++ i :: l') j d := by
  obtain ⟨before, after, rfl, hrest⟩ := h
  exact ⟨l ++ i :: before, after, by simp, by rw [foldlM_append_ok hbefore, foldlM_cons_ok hround, hrest]⟩

end Cthulhu.Lib
