import Mathlib

/-! # A flat memory of bytes

Addresses are 64-bit numbers and wrap around. Programs that read and write stretches of memory are
followed by the list of their accesses. -/

namespace FlatMemory

abbrev Memory := Nat → UInt8

variable {m m' : Memory} {a n lo hi : Nat}

/-- The little-endian number in the `n` bytes from `a` on. -/
def load (m : Memory) (a : Nat) : Nat → Nat
  | 0 => 0
  | n + 1 => (m (a % 2 ^ 64)).toNat + 256 * load m (a + 1) n

/-- `n` bytes from `dst` on replaced by those from `src` on, or by one value. -/
def copy (m : Memory) (dst src n : Nat) : Memory := fun a =>
  if (a + 2 ^ 64 - dst) % 2 ^ 64 < n then m ((src + (a + 2 ^ 64 - dst) % 2 ^ 64) % 2 ^ 64) else m a

def fill (m : Memory) (dst : Nat) (value : UInt8) (n : Nat) : Memory := fun a =>
  if (a + 2 ^ 64 - dst) % 2 ^ 64 < n then value else m a

/-- A stretch of memory that is read or written. -/
inductive Access where
  | read (addr n : Nat)
  | write (addr n : Nat)
  deriving DecidableEq

/-- The `n` bytes from `addr` on lie in `[lo, hi)`. -/
def Within (lo hi addr n : Nat) : Prop :=
  ∀ k < n, lo ≤ (addr + k) % 2 ^ 64 ∧ (addr + k) % 2 ^ 64 < hi

theorem within_zero (lo hi addr : Nat) : Within lo hi addr 0 := fun _ h => absurd h (Nat.not_lt_zero _)

/-- A stretch lies in a part of memory that is not all of it if its ends do, without a wrap. -/
theorem within_iff {addr : Nat} (haddr : addr < 2 ^ 64) (hhi : hi < 2 ^ 64) :
    Within lo hi addr n ↔ n = 0 ∨ lo ≤ addr ∧ addr + n ≤ hi := by
  constructor
  · intro h
    by_cases hn : n = 0
    · exact .inl hn
    · have h0 := h 0 (Nat.pos_of_ne_zero hn)
      rw [Nat.add_zero, Nat.mod_eq_of_lt haddr] at h0
      refine .inr ⟨h0.1, ?_⟩
      by_contra hout
      -- the byte at `hi` would be one of them
      have hend := (h (hi - addr) (by omega)).2
      rw [Nat.add_sub_cancel' h0.2.le, Nat.mod_eq_of_lt hhi] at hend
      exact Nat.lt_irrefl _ hend
  · rintro (rfl | ⟨hlo, hle⟩)
    · exact within_zero lo hi addr
    · intro k hk
      rw [Nat.mod_eq_of_lt (by omega)]
      omega

theorem load_congr (h : ∀ k < n, m ((a + k) % 2 ^ 64) = m' ((a + k) % 2 ^ 64)) :
    load m a n = load m' a n := by
  induction n generalizing a with
  | zero => rfl
  | succ n ih =>
    have h0 := h 0 (Nat.succ_pos n)
    rw [Nat.add_zero] at h0
    rw [load, load, h0, ih fun k hk => ?_]
    have := h (k + 1) (Nat.succ_lt_succ hk)
    rwa [← Nat.add_assoc, Nat.add_right_comm] at this

/-- The same bytes at another place. -/
theorem load_shift {b : Nat} (h : ∀ k < n, m ((a + k) % 2 ^ 64) = m' ((b + k) % 2 ^ 64)) :
    load m a n = load m' b n := by
  induction n generalizing a b with
  | zero => rfl
  | succ n ih =>
    have h0 := h 0 (Nat.succ_pos n)
    rw [Nat.add_zero, Nat.add_zero] at h0
    rw [load, load, h0, ih fun k hk => ?_]
    have := h (k + 1) (Nat.succ_lt_succ hk)
    rwa [← Nat.add_assoc, Nat.add_right_comm, ← Nat.add_assoc, Nat.add_right_comm b] at this

theorem load_lt (m : Memory) (a n : Nat) : load m a n < 256 ^ n := by
  induction n generalizing a with
  | zero => exact Nat.one_pos
  | succ n ih =>
    have hrest := ih (a + 1)
    have hb := UInt8.toNat_lt (m (a % 2 ^ 64))
    rw [load, Nat.pow_succ]
    generalize (m (a % 2 ^ 64)).toNat = b at hb ⊢
    omega

/-- A number in the part `[lo, hi)` where two memories agree. -/
theorem load_eq (h : ∀ b, lo ≤ b → b < hi → m b = m' b) (hhi : hi ≤ 2 ^ 64) (ha : lo ≤ a)
    (hn : a + n ≤ hi) : load m a n = load m' a n := by
  refine load_congr fun k hk => ?_
  rw [Nat.mod_eq_of_lt (by omega)]
  exact h _ (by omega) (by omega)

/-- A byte outside of the part that is written is not written. -/
theorem not_written {dst : Nat} (hw : Within lo hi dst n) (ha : a < 2 ^ 64) (hout : ¬ (lo ≤ a ∧ a < hi))
    (hdst : dst < 2 ^ 64) : ¬ (a + 2 ^ 64 - dst) % 2 ^ 64 < n := by
  intro hlt
  have := hw _ hlt
  have heq : (dst + (a + 2 ^ 64 - dst) % 2 ^ 64) % 2 ^ 64 = a := by omega
  rw [heq] at this
  exact hout this

theorem copy_of_not_within {dst src : Nat} (hw : Within lo hi dst n) (hdst : dst < 2 ^ 64)
    (ha : a < 2 ^ 64) (hout : ¬ (lo ≤ a ∧ a < hi)) : copy m dst src n a = m a :=
  if_neg (not_written hw ha hout hdst)

theorem fill_of_not_within {dst : Nat} {value : UInt8} (hw : Within lo hi dst n)
    (hdst : dst < 2 ^ 64) (ha : a < 2 ^ 64) (hout : ¬ (lo ≤ a ∧ a < hi)) :
    fill m dst value n a = m a :=
  if_neg (not_written hw ha hout hdst)

end FlatMemory
