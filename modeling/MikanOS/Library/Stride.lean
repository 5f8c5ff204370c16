import Mathlib.Tactic.Common

/-! # Cursors that move by strides

A loop that moves its cursor by a stride for as long as a test holds, the places that the cursor comes to,
and when the loop ends. -/

namespace MikanOS.Stride

section Definitions

variable (more : Nat → Prop) [DecidablePred more] (stride : Nat → Nat)

/-- The cursor after a number of turns. -/
def after : (turns i : Nat) → Nat
  | 0, i => i
  | turns + 1, i => if more i then after turns (i + stride i) else i

/-- The test fails at last. -/
def Ends (i : Nat) : Prop := ∃ turns, ¬more (after more stride turns i)

end Definitions

/-- The places that the cursor comes to. -/
inductive Visits (more : Nat → Prop) (stride : Nat → Nat) (i : Nat) : Nat → Prop
  | start : Visits more stride i i
  | turn {j : Nat} : Visits more stride i j → more j → Visits more stride i (j + stride j)

variable {more : Nat → Prop} {stride : Nat → Nat} {i j : Nat}

theorem Visits.trans {k : Nat} (h : Visits more stride i j) (h' : Visits more stride j k) :
    Visits more stride i k := by
  induction h' with
  | start => exact h
  | turn _ hmore ih => exact ih.turn hmore

/-- The place after a turn, seen from the place before it. -/
theorem Visits.head (hmore : more i) (h : Visits more stride (i + stride i) j) : Visits more stride i j :=
  (Visits.start.turn hmore).trans h

/-- A stronger test comes to fewer places, if it agrees where the cursor comes. -/
theorem Visits.imp {more' : Nat → Prop} {stride' : Nat → Nat} (h : Visits more stride i j)
    (himp : ∀ j, Visits more stride i j → more j → more' j ∧ stride' j = stride j) :
    Visits more' stride' i j := by
  induction h with
  | start => exact .start
  | turn hj hmore ih =>
    obtain ⟨hmore', hstride⟩ := himp _ hj hmore
    exact hstride ▸ ih.turn hmore'

variable [DecidablePred more]

/-- The last turn. -/
theorem after_succ (turns i : Nat) :
    after more stride (turns + 1) i =
      if more (after more stride turns i) then
        after more stride turns i + stride (after more stride turns i)
      else after more stride turns i := by
  induction turns generalizing i with
  | zero => rfl
  | succ turns ih =>
    rw [after]
    by_cases hmore : more i
    · rw [if_pos hmore, ih, after, if_pos hmore]
    · have hstay : after more stride (turns + 1) i = i := by rw [after, if_neg hmore]
      rw [if_neg hmore, hstay, if_neg hmore]

theorem visits_after (turns i : Nat) : Visits more stride i (after more stride turns i) := by
  induction turns with
  | zero => exact .start
  | succ turns ih =>
    rw [after_succ]
    split
    · rename_i hmore
      exact ih.turn hmore
    · exact ih

theorem Visits.exists_after (h : Visits more stride i j) : ∃ turns, after more stride turns i = j := by
  induction h with
  | start => exact ⟨0, rfl⟩
  | turn _ hmore ih =>
    obtain ⟨turns, rfl⟩ := ih
    exact ⟨turns + 1, by rw [after_succ, if_pos hmore]⟩

theorem ends_iff : Ends more stride i ↔ ∃ j, Visits more stride i j ∧ ¬more j := by
  constructor
  · rintro ⟨turns, h⟩
    exact ⟨_, visits_after turns i, h⟩
  · rintro ⟨j, hj, h⟩
    obtain ⟨turns, rfl⟩ := hj.exists_after
    exact ⟨turns, h⟩

/-- Once the test has failed, the cursor stays. -/
theorem after_eq_of_le {turns n : Nat} (h : ¬more (after more stride turns i)) (hle : turns ≤ n) :
    after more stride n i = after more stride turns i := by
  obtain ⟨k, rfl⟩ := Nat.exists_eq_add_of_le hle
  clear hle
  induction k with
  | zero => rfl
  | succ k ih => rw [← Nat.add_assoc, after_succ, ih, if_neg h]

/-- A loop ends if each stride moves the cursor, below a bound. -/
theorem ends_of_lt {z : Nat} (h : ∀ j, Visits more stride i j → more j → 0 < stride j ∧ j < z) :
    Ends more stride i := by
  suffices hends : ∀ n j, z ≤ j + n → Visits more stride i j → ∃ turns, ¬more (after more stride turns i) from
    hends z i (Nat.le_add_left z i) .start
  intro n
  induction n with
  | zero =>
    intro j hz hj
    obtain ⟨turns, rfl⟩ := hj.exists_after
    exact ⟨turns, fun hmore => absurd (h _ hj hmore).2 (Nat.not_lt.mpr hz)⟩
  | succ n ih =>
    intro j hz hj
    by_cases hmore : more j
    · have hpos := (h j hj hmore).1
      exact ih (j + stride j) (by omega) (hj.turn hmore)
    · obtain ⟨turns, rfl⟩ := hj.exists_after
      exact ⟨turns, hmore⟩

/-- A loop that comes to a place where the test holds and the stride is 0 stays there. -/
theorem not_ends_of_stuck (h : Visits more stride i j) (hmore : more j) (hstride : stride j = 0) :
    ¬Ends more stride i := by
  rintro ⟨n, hn⟩
  obtain ⟨turns, rfl⟩ := h.exists_after
  have hstay : ∀ k, after more stride (turns + k) i = after more stride turns i := by
    intro k
    induction k with
    | zero => rfl
    | succ k ih => rw [← Nat.add_assoc, after_succ, ih, if_pos hmore, hstride, Nat.add_zero]
  have hagree : after more stride (turns + n) i = after more stride n i :=
    after_eq_of_le hn (Nat.le_add_left n turns)
  rw [← hagree, hstay] at hn
  exact hn hmore

end MikanOS.Stride
