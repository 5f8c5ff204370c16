import Mathlib

/-! # Buffers

A buffer is the function from its indices to its elements; `slice` is a stretch of it as a list and
`memcpy` the usual copy of a stretch. -/

namespace Bytes

variable {α : Type*}

/-- The `n` elements of `buf` from index `off` on. -/
def slice (buf : Nat → α) (off n : Nat) : List α := (List.range n).map fun i => buf (off + i)

/-- `dst` with `n` elements from `dstOff` on replaced by those of `src` from `srcOff` on. -/
def memcpy (dst : Nat → α) (dstOff : Nat) (src : Nat → α) (srcOff n : Nat) : Nat → α :=
  fun i => if dstOff ≤ i ∧ i < dstOff + n then src (srcOff + (i - dstOff)) else dst i

variable {buf dst src : Nat → α}

@[simp] theorem length_slice (off n : Nat) : (slice buf off n).length = n := by simp [slice]

@[simp] theorem slice_zero (off : Nat) : slice buf off 0 = [] := rfl

theorem slice_eq_nil : slice buf off n = [] ↔ n = 0 := by simp [slice]

theorem slice_add (off m n : Nat) :
    slice buf off (m + n) = slice buf off m ++ slice buf (off + m) n := by
  simp [slice, List.range_add, Function.comp_def, Nat.add_assoc]

theorem take_slice (off m n : Nat) : (slice buf off n).take m = slice buf off (min m n) := by
  simp [slice, ← List.map_take, List.take_range]

theorem drop_slice (off m n : Nat) : (slice buf off n).drop m = slice buf (off + m) (n - m) := by
  rcases Nat.le_total m n with hle | hle
  · obtain ⟨k, rfl⟩ := Nat.exists_eq_add_of_le hle
    rw [slice_add, List.drop_append_of_le_length (length_slice off m).ge,
      List.drop_of_length_le (length_slice off m).le, Nat.add_sub_cancel_left, List.nil_append]
  · rw [Nat.sub_eq_zero_of_le hle, slice_zero]
    exact List.drop_of_length_le ((length_slice off n).trans_le hle)

theorem slice_congr (h : ∀ i < n, buf (off + i) = src (off' + i)) :
    slice buf off n = slice src off' n := by
  refine List.map_congr_left fun i hi => h i (List.mem_range.mp hi)

/-- What was copied. -/
theorem slice_memcpy_self (dstOff srcOff n : Nat) :
    slice (memcpy dst dstOff src srcOff n) dstOff n = slice src srcOff n := by
  refine slice_congr fun i hi => ?_
  simp [memcpy, hi]

/-- A stretch beside the one that was written. -/
theorem slice_memcpy_of_disjoint (h : off + m ≤ dstOff ∨ dstOff + n ≤ off) :
    slice (memcpy dst dstOff src srcOff n) off m = slice dst off m := by
  refine slice_congr fun i hi => ?_
  simp only [memcpy]
  rw [if_neg (by omega)]

end Bytes
