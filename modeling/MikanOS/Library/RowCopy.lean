import Mathlib

/-! # Copying rows in place

A rectangle of a buffer is moved by copying its rows one after the other, each as one stretch. Where the two
rectangles overlap, the order of the rows decides whether each is read before it is overwritten. -/

namespace RowCopy

variable {α : Type*} {m : Int → α} {dst src step : Int} {n rows : Nat}

/-- The stretches of `n` elements from `a` and from `b` on have none in common. -/
def Apart (n : Nat) (a b : Int) : Prop := a + n ≤ b ∨ b + n ≤ a

instance (n : Nat) (a b : Int) : Decidable (Apart n a b) := inferInstanceAs (Decidable (_ ∨ _))

/-- `n` elements from `dst` on replaced by those from `src` on. `none`: the two stretches overlap, which
`memcpy` does not allow. -/
def memcpy (m : Int → α) (dst src : Int) (n : Nat) : Option (Int → α) :=
  if Apart n dst src then some fun a => if dst ≤ a ∧ a < dst + n then m (src + (a - dst)) else m a else none

/-- A number of rows copied, from each to the next one by `step`. -/
def copyRows (m : Int → α) (dst src step : Int) (n : Nat) : (rows : Nat) → Option (Int → α)
  | 0 => some m
  | rows + 1 => (memcpy m dst src n).bind fun m => copyRows m (dst + step) (src + step) step n rows

theorem Apart.of_eq_zero (h : n = 0) (a b : Int) : Apart n a b := by
  subst h
  rw [Apart, Nat.cast_zero, add_zero, add_zero]
  exact le_total a b

/-- Rows without elements. -/
theorem copyRows_empty (m : Int → α) (dst src step : Int) (rows : Nat) :
    copyRows m dst src step 0 rows = some m := by
  induction rows generalizing dst src with
  | zero => rfl
  | succ rows ih =>
    have hsame : memcpy m dst src 0 = some m := by
      rw [memcpy, if_pos (Apart.of_eq_zero rfl _ _)]
      congr 1
      funext a
      exact if_neg (by omega)
    rw [copyRows, hsame]
    exact ih ..

/-- What `copyRows` leaves of `m`. -/
structure Copied (m m' : Int → α) (dst src step : Int) (n rows : Nat) : Prop where
  copied : ∀ i < rows, ∀ k < n, m' (dst + i * step + k) = m (src + i * step + k)
  kept : ∀ a, (∀ i < rows, ¬(dst + i * step ≤ a ∧ a < dst + i * step + n)) → m' a = m a

/-- If no row is overwritten before it is read, all of them arrive. -/
theorem copyRows_spec
    (hunread : ∀ i j, i ≤ j → j < rows → Apart n (dst + i * step) (src + j * step))
    (hrows : ∀ i j, i < j → j < rows → Apart n (dst + i * step) (dst + j * step)) :
    ∃ m', copyRows m dst src step n rows = some m' ∧ Copied m m' dst src step n rows := by
  induction rows generalizing m dst src with
  | zero => exact ⟨m, rfl, fun i hi => absurd hi (Nat.not_lt_zero i), fun _ _ => rfl⟩
  | succ rows ih =>
    have hnext (a : Int) (i : Nat) : a + step + i * step = a + ((i + 1 : Nat) : Int) * step := by
      rw [Nat.cast_succ]
      ring
    have hfirst (a : Int) : a + ((0 : Nat) : Int) * step = a := by
      rw [Nat.cast_zero, zero_mul, add_zero]
    have hread (j : Nat) (hj : j < rows + 1) : Apart n dst (src + j * step) := by
      have h := hunread 0 j (Nat.zero_le j) hj
      rwa [hfirst] at h
    obtain ⟨m', hcopy, hcopied, hkept⟩ := @ih
      (fun a => if dst ≤ a ∧ a < dst + n then m (src + (a - dst)) else m a) (dst + step) (src + step)
      (fun i j hij hj => by
        rw [hnext, hnext]
        exact hunread _ _ (Nat.succ_le_succ hij) (Nat.succ_lt_succ hj))
      (fun i j hij hj => by
        rw [hnext, hnext]
        exact hrows _ _ (Nat.succ_lt_succ hij) (Nat.succ_lt_succ hj))
    have happart : Apart n dst src := by
      have h := hread 0 (Nat.succ_pos rows)
      rwa [hfirst] at h
    refine ⟨m', ?_, ?_, ?_⟩
    · rw [copyRows, memcpy, if_pos happart]
      exact hcopy
    · intro i hi k hk
      cases i with
      | zero =>
        -- the later rows do not come to lie on the first one
        rw [hfirst, hfirst, hkept]
        · rw [if_pos (by omega)]
          congr 1
          omega
        · intro i hi hmem
          have h := hrows 0 (i + 1) (Nat.succ_pos i) (Nat.succ_lt_succ hi)
          rw [hfirst] at h
          rw [hnext] at hmem
          rcases h with h | h <;> omega
      | succ i =>
        have h := hcopied i (Nat.lt_of_succ_lt_succ hi) k hk
        rw [hnext, hnext] at h
        rw [h, if_neg]
        rcases hread (i + 1) hi with h | h <;> omega
    · intro a ha
      have hzero := ha 0 (Nat.succ_pos rows)
      rw [hfirst] at hzero
      rw [hkept a, if_neg hzero]
      intro i hi
      rw [hnext]
      exact ha (i + 1) (Nat.succ_lt_succ hi)

end RowCopy
