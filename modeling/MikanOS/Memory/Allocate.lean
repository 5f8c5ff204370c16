import MikanOS.Library.FirstFit
import MikanOS.Memory.BitmapMemoryManager

/-! # What `Allocate` returns

`Allocate` agrees with the first-fit search over the frames of the range: it returns the least
fitting start if there is one, and fails otherwise. -/

namespace MikanOS.BitmapMemoryManager

open FirstFit

variable {m : BitmapMemoryManager} {start n i remaining : Nat}

/-- The starts of the runs of `n` free frames in the range, from `lo` on. -/
def FreeStarts (m : BitmapMemoryManager) (n lo : Nat) : Set Nat :=
  Starts (fun f => m.getBit f = true) m.rangeEnd n lo

/-- The inner loop: it stops at the first frame past the range or in use. -/
theorem scan_spec (hlo : ∀ j < i, start + j < m.rangeEnd ∧ m.getBit (start + j) = false)
    (hn : i + remaining = n) :
    (m.scan start i remaining = .found →
      ∀ j < n, start + j < m.rangeEnd ∧ m.getBit (start + j) = false) ∧
    (m.scan start i remaining = .pastEnd → ∃ j < n, m.rangeEnd ≤ start + j) ∧
    ∀ j, m.scan start i remaining = .used j → j < n ∧ m.getBit (start + j) = true := by
  induction remaining generalizing i with
  | zero =>
    refine ⟨fun _ j hj => hlo j (by omega), fun h => ?_, fun _ h => ?_⟩ <;> simp [scan] at h
  | succ remaining ih =>
    simp only [scan]
    split
    · exact ⟨fun h => (by cases h), fun _ => ⟨i, by omega, by assumption⟩, fun _ h => by cases h⟩
    split
    · refine ⟨fun h => (by cases h), fun h => (by cases h), fun j h => ?_⟩
      cases h
      exact ⟨by omega, by assumption⟩
    · refine ih (fun j hj => ?_) (by omega)
      rcases Nat.lt_succ_iff_lt_or_eq.mp hj with hj | rfl
      · exact hlo j hj
      · exact ⟨by omega, by simpa using ‹¬ m.getBit _ = true›⟩

/-- The inner loop from its beginning. -/
theorem scan_zero_spec (m : BitmapMemoryManager) (start n : Nat) :
    (m.scan start 0 n = .found →
      ∀ j < n, start + j < m.rangeEnd ∧ m.getBit (start + j) = false) ∧
    (m.scan start 0 n = .pastEnd → ∃ j < n, m.rangeEnd ≤ start + j) ∧
    ∀ j, m.scan start 0 n = .used j → j < n ∧ m.getBit (start + j) = true :=
  scan_spec (fun j hj => absurd hj (Nat.not_lt_zero j)) (Nat.zero_add n)

/-- The outer loop, from any candidate on. The induction follows the candidates; each is later
than the one before, and the skipped starts fit nowhere. -/
theorem allocateFrom_spec (hn : 1 ≤ n) :
    (∃ s, IsLeast (m.FreeStarts n start) s ∧
      m.allocateFrom n start = (⟨s, .kSuccess⟩, m.markAllocated s n)) ∨
    (m.FreeStarts n start = ∅ ∧
      m.allocateFrom n start = (⟨kNullFrame, .kNoEnoughMemory⟩, m)) := by
  induction start using allocateFrom.induct m n with
  | case1 start h =>
    obtain ⟨j, hj, hend⟩ := (scan_zero_spec m start n).2.1 h
    refine .inr ⟨starts_eq_empty_of_bound hj hend, ?_⟩
    rw [allocateFrom]
    split <;> simp_all
  | case2 start h =>
    have hfits : Fits (fun f => m.getBit f = true) m.rangeEnd n start := by
      have hfree := (scan_zero_spec m start n).1 h
      refine ⟨?_, fun j hj => by simp [(hfree j hj).2]⟩
      have := (hfree (n - 1) (by omega)).1
      omega
    refine .inl ⟨start, isLeast_of_fits hfits, ?_⟩
    rw [allocateFrom]
    split <;> simp_all
  | case3 start i h ih =>
    obtain ⟨hi, hused⟩ := (scan_zero_spec m start n).2.2 i h
    have hstarts : m.FreeStarts n start = m.FreeStarts n (start + (i + 1)) :=
      starts_eq_of_used hi hused
    have hstep : m.allocateFrom n start = m.allocateFrom n (start + (i + 1)) := by
      rw [allocateFrom]
      split <;> simp_all
    rw [hstarts, hstep]
    exact ih

/-- `Allocate` returns the first fitting run and marks it, or fails and changes nothing. -/
theorem allocate_spec (m : BitmapMemoryManager) (hn : 1 ≤ n) :
    (∃ s, IsLeast (m.FreeStarts n m.rangeBegin) s ∧
      m.allocate n = (⟨s, .kSuccess⟩, m.markAllocated s n)) ∨
    (m.FreeStarts n m.rangeBegin = ∅ ∧
      m.allocate n = (⟨kNullFrame, .kNoEnoughMemory⟩, m)) :=
  allocateFrom_spec hn

theorem allocate_of_isLeast (hn : 1 ≤ n) (h : IsLeast (m.FreeStarts n m.rangeBegin) start) :
    m.allocate n = (⟨start, .kSuccess⟩, m.markAllocated start n) := by
  rcases allocate_spec m hn with ⟨s, hs, heq⟩ | ⟨hempty, -⟩
  · rw [heq, hs.unique h]
  · exact absurd h.1 (by rw [hempty]; exact fun h => h)

theorem allocate_zero (m : BitmapMemoryManager) :
    m.allocate 0 = (⟨m.rangeBegin, .kSuccess⟩, m) := by
  rw [allocate, allocateFrom]
  split <;> simp_all [scan, markAllocated]

end MikanOS.BitmapMemoryManager
