import Mathlib

/-! # First fit

The starts at which a run of `n` free cells fits below a bound, and what a first-fit search may
skip after it has met a used cell. -/

namespace FirstFit

variable (used : Nat → Prop) (bound n : Nat)

/-- `n` cells from `start` on lie below `bound` and are all free. -/
def Fits (start : Nat) : Prop := start + n ≤ bound ∧ ∀ i < n, ¬ used (start + i)

/-- The fitting starts from `lo` on. -/
def Starts (lo : Nat) : Set Nat := {s | lo ≤ s ∧ Fits used bound n s}

variable {used bound n}

/-- No run that starts at or before a used cell and reaches it fits. -/
theorem Fits.lt_of_used (h : Fits used bound n s) (hlo : lo ≤ s) (hi : i < n)
    (hused : used (lo + i)) : lo + i < s := by
  by_contra hle
  refine h.2 (lo + i - s) (by omega) ?_
  rwa [Nat.add_sub_cancel' (by omega)]

/-- After a used cell at `lo + i` the search may go on at `lo + (i + 1)`. -/
theorem starts_eq_of_used (hi : i < n) (hused : used (lo + i)) :
    Starts used bound n lo = Starts used bound n (lo + (i + 1)) := by
  ext s
  constructor
  · rintro ⟨hlo, h⟩
    exact ⟨h.lt_of_used hlo hi hused, h⟩
  · rintro ⟨hlo, h⟩
    exact ⟨by omega, h⟩

/-- A run that would pass the bound fits neither here nor later. -/
theorem starts_eq_empty_of_bound (hi : i < n) (hb : bound ≤ lo + i) :
    Starts used bound n lo = ∅ := by
  ext s
  refine ⟨fun hs => ?_, False.elim⟩
  obtain ⟨hlo, h⟩ := hs
  have := h.1
  exact absurd hb (by omega)

theorem isLeast_of_fits (h : Fits used bound n lo) : IsLeast (Starts used bound n lo) lo :=
  ⟨⟨Nat.le_refl _, h⟩, fun _ h' => h'.1⟩

end FirstFit
