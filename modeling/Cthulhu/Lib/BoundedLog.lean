import Mathlib.Data.List.Basic
import Cthulhu.Lib.Run

/-!
# Logs with bounded room

A loop that records what it finds stops when there is no room for the next record. Whatever the loops are nested in, the
log is then the first records of all that would be made. A scan that records up to and with the
first element that fails a test is a list function of its own.
-/

namespace Cthulhu.Lib

variable {α β : Type*}

/-- The records so far, the room for more, and whether one has found none. -/
structure BoundedLog (α : Type*) where
  entries : List α
  room : ℕ
  full : Bool
  deriving DecidableEq, Repr

namespace BoundedLog

variable {log : BoundedLog α}

/-- Records that are made one after the other. -/
def push (log : BoundedLog α) (l : List α) : BoundedLog α where
  entries := log.entries ++ l.take log.room
  room := log.room - l.length
  full := log.full || decide (log.room < l.length)

/-- The records there was room for. -/
theorem push_entries (l : List α) : (log.push l).entries = log.entries ++ l.take log.room := rfl

/-- A log that has found no room has none. -/
def Stopped (log : BoundedLog α) : Prop := log.full = true → log.room = 0

/-- No records. -/
@[simp] theorem push_nil : log.push [] = log := by
  simp [push]

/-- Records after records. -/
theorem push_append (l l' : List α) : log.push (l ++ l') = (log.push l).push l' := by
  unfold push
  rw [List.take_append, List.length_append, List.append_assoc, Nat.sub_sub, Bool.or_assoc]
  congr 2
  rw [← Bool.decide_or, decide_eq_decide]
  dsimp only
  omega

/-- A log without room stays as it is. -/
theorem push_of_full (h : log.Stopped) (hfull : log.full = true) (l : List α) : log.push l = log := by
  have hroom := h hfull
  cases log
  simp_all [push]

/-- A record that finds no room. -/
theorem push_of_no_room (h : log.room = 0) (a : α) (l : List α) : log.push (a :: l) = { log with full := true } := by
  cases log
  simp_all [push]

/-- A record that finds room. -/
theorem push_singleton (h : log.room ≠ 0) (a : α) :
    log.push [a] = { log with entries := log.entries ++ [a], room := log.room - 1 } := by
  obtain ⟨entries, room, full⟩ := log
  obtain ⟨m, rfl⟩ := Nat.exists_eq_succ_of_ne_zero h
  simp [push]

/-- Records keep it. -/
theorem Stopped.push (h : log.Stopped) (l : List α) : (log.push l).Stopped := by
  intro hfull
  rcases Bool.or_eq_true _ _ ▸ hfull with hbefore | hnow
  · have hroom := h hbefore
    change log.room - l.length = 0
    omega
  · have hroom := of_decide_eq_true hnow
    change log.room - l.length = 0
    omega

/-- A loop whose rounds push records pushes the records of all rounds. -/
theorem run_push {step : BoundedLog α → β → BoundedLog α} {records : β → List α}
    (hstep : ∀ log b, log.Stopped → step log b = log.push (records b)) (h : log.Stopped) (l : List β) :
    run step log l = log.push (l.flatMap records) := by
  induction l generalizing log with
  | nil => exact push_nil.symm
  | cons b rest ih =>
    rw [List.flatMap_cons, push_append, run, List.foldl_cons, hstep log b h]
    exact ih (h.push _)

end BoundedLog

/-- The elements up to and with the first that fails the test. -/
def takeThrough (p : α → Bool) : List α → List α
  | [] => []
  | a :: l => if p a then a :: takeThrough p l else [a]

/-- The scan depends on the tests of its elements only. -/
theorem takeThrough_congr {p q : α → Bool} {l : List α} (h : ∀ a ∈ l, p a = q a) : takeThrough p l = takeThrough q l := by
  induction l with
  | nil => rfl
  | cons a l ih =>
    rw [List.forall_mem_cons] at h
    rw [takeThrough, takeThrough, h.1, ih h.2]

/-- They are elements of the list, in its order. -/
theorem takeThrough_sublist (p : α → Bool) (l : List α) : (takeThrough p l).Sublist l := by
  induction l with
  | nil => exact List.Sublist.slnil
  | cons a l ih =>
    unfold takeThrough
    split
    · exact ih.cons_cons a
    · exact (List.nil_sublist l).cons_cons a

/-- In a list that goes up they are the elements below which none fails. -/
theorem mem_takeThrough {p : ℕ → Bool} {l : List ℕ} (hl : l.Pairwise (· < ·)) (a : ℕ) :
    a ∈ takeThrough p l ↔ a ∈ l ∧ ∀ b ∈ l, b < a → p b = true := by
  induction l with
  | nil => simp [takeThrough]
  | cons c l ih =>
    obtain ⟨hc, hl⟩ := List.pairwise_cons.mp hl
    have hhead : ∀ b ∈ c :: l, b < c → p b = true := by
      intro b hb hlt
      cases List.mem_cons.mp hb with
      | inl hsame => omega
      | inr hrest =>
        have habove := hc b hrest
        omega
    unfold takeThrough
    split
    case isTrue hp =>
      rw [List.mem_cons, ih hl, List.mem_cons]
      constructor
      · intro h
        cases h with
        | inl hsame => exact ⟨Or.inl hsame, hsame ▸ hhead⟩
        | inr hrest => exact ⟨Or.inr hrest.1, List.forall_mem_cons.mpr ⟨fun _ => hp, hrest.2⟩⟩
      · intro h
        exact h.1.imp_right fun hrest => ⟨hrest, (List.forall_mem_cons.mp h.2).2⟩
    case isFalse hp =>
      rw [List.mem_singleton, List.mem_cons]
      constructor
      · rintro rfl
        exact ⟨Or.inl rfl, hhead⟩
      · intro h
        cases h.1 with
        | inl hsame => exact hsame
        | inr hrest => exact absurd (h.2 c List.mem_cons_self (hc a hrest)) hp

end Cthulhu.Lib
