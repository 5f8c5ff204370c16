import Mathlib

/-! # Waiting by the PM timer

`WaitMilliseconds` of `acpi.cpp`. The timer counts with 24 or 32 bits, and `poll` gives what its register
reads at each access. -/

namespace MikanOS.Acpi

def kPMTimerFreq : Nat := 3579545

/-- `pm_timer_32`: bit 8 of the flags of the FADT. -/
def pmTimer32 (flags : Nat) : Bool := flags.testBit 8

/-- The number of bits of the timer. -/
def timerWidth (flags : Nat) : Nat := if pmTimer32 flags then 32 else 24

/-- The ticks of some milliseconds, computed as an `unsigned long`. -/
def waitTicks (msec : Nat) : Nat := kPMTimerFreq * msec % 2 ^ 64 / 1000

theorem timerWidth_le (flags : Nat) : timerWidth flags ≤ 32 := by
  rw [timerWidth]
  split <;> decide

/-- `end`. -/
def waitEnd (flags start msec : Nat) : Nat :=
  let end32 := (start + waitTicks msec) % 2 ^ 32
  if pmTimer32 flags then end32 else end32 &&& 0x00ffffff

/-- `while (cond(IoIn32(..)));` from access `k` on: the access that ends it, if it is one of the next
`turns`. -/
def pollWhile (cond : Nat → Prop) [DecidablePred cond] (poll : Nat → Nat) : (turns k : Nat) → Option Nat
  | 0, _ => none
  | turns + 1, k => if cond (poll k) then pollWhile cond poll turns (k + 1) else some k

/-- `WaitMilliseconds`: its last access. The first one is access 0. -/
def waitMilliseconds (flags msec : Nat) (poll : Nat → Nat) (turns : Nat) : Option Nat :=
  let start := poll 0
  let end_ := waitEnd flags start msec
  if end_ < start then
    (pollWhile (start ≤ ·) poll turns 1).bind fun k => pollWhile (· < end_) poll turns (k + 1)
  else pollWhile (· < end_) poll turns 1

variable {cond : Nat → Prop} [DecidablePred cond] {poll t : Nat → Nat} {flags msec turns k k' : Nat}

theorem pollWhile_spec (h : pollWhile cond poll turns k = some k') : k ≤ k' ∧ ¬cond (poll k') := by
  induction turns generalizing k with
  | zero => cases h
  | succ turns ih =>
    rw [pollWhile] at h
    split at h
    · obtain ⟨hle, hcond⟩ := ih h
      exact ⟨Nat.le_of_succ_le hle, hcond⟩
    · next hcond =>
      obtain rfl := Option.some.inj h
      exact ⟨le_rfl, hcond⟩

theorem waitEnd_eq (start : Nat) :
    waitEnd flags start msec = (start + waitTicks msec) % 2 ^ timerWidth flags := by
  have hmask (n : Nat) : n &&& 0x00ffffff = n % 2 ^ 24 := Nat.and_two_pow_sub_one_eq_mod n 24
  rw [waitEnd, timerWidth]
  split
  · rfl
  · rw [hmask]
    omega

/-- Before a whole turn is over the register has wrapped around at most once. -/
theorem register_cases {size start elapsed : Nat} (hstart : start < size) (hlt : elapsed < size) :
    (start + elapsed < size ∧ (start + elapsed) % size = start + elapsed) ∨
      (size ≤ start + elapsed ∧ (start + elapsed) % size = start + elapsed - size) := by
  rcases Nat.lt_or_ge (start + elapsed) size with hbelow | hwrapped
  · exact .inl ⟨hbelow, Nat.mod_eq_of_lt hbelow⟩
  · refine .inr ⟨hwrapped, ?_⟩
    rw [Nat.mod_eq_sub_mod hwrapped, Nat.mod_eq_of_lt (by omega)]

/-- The last access of a wait is not less than the ticks of `msec` after its first one, however far apart
the accesses in between are. -/
theorem waitMilliseconds_elapsed (hmono : Monotone t)
    (hpoll : ∀ i, poll i = t i % 2 ^ timerWidth flags)
    (hpos : 0 < kPMTimerFreq * msec / 1000) (hfits : kPMTimerFreq * msec / 1000 < 2 ^ timerWidth flags)
    (h : waitMilliseconds flags msec poll turns = some k) :
    t 0 + kPMTimerFreq * msec / 1000 ≤ t k := by
  have hwidth : 2 ^ timerWidth flags ≤ 2 ^ 32 := Nat.pow_le_pow_right (by decide) (timerWidth_le flags)
  have hticks : waitTicks msec = kPMTimerFreq * msec / 1000 := by
    rw [waitTicks, Nat.mod_eq_of_lt (by omega)]
  have hstart : poll 0 < 2 ^ timerWidth flags := hpoll 0 ▸ Nat.mod_lt _ (Nat.two_pow_pos _)
  have hend : waitEnd flags (poll 0) msec = _ := waitEnd_eq (poll 0)
  rw [hticks] at hend
  generalize kPMTimerFreq * msec / 1000 = n at hpos hfits hend ⊢
  by_contra! hearly
  generalize 2 ^ timerWidth flags = size at *
  have hread (i : Nat) (hi : i ≤ k) :
      (poll 0 + (t i - t 0) < size ∧ poll i = poll 0 + (t i - t 0)) ∨
        (size ≤ poll 0 + (t i - t 0) ∧ poll i = poll 0 + (t i - t 0) - size) := by
    have hmod : poll i = (poll 0 + (t i - t 0)) % size := by
      rw [hpoll 0, Nat.mod_add_mod, Nat.add_sub_cancel' (hmono (Nat.zero_le i)), hpoll i]
    have hle := hmono hi
    rw [hmod]
    exact register_cases hstart (by omega)
  have hge := hmono (Nat.zero_le k)
  have hendCases := register_cases hstart hfits
  rw [← hend] at hendCases
  rw [waitMilliseconds] at h
  split at h
  · next hwraps =>
    obtain ⟨i, hfirst, hsecond⟩ := Option.bind_eq_some_iff.mp h
    obtain ⟨-, hbelow⟩ := pollWhile_spec hfirst
    obtain ⟨hik, hreached⟩ := pollWhile_spec hsecond
    -- at `i` the register has wrapped around, so at `k` it has too and still is below the end
    have hle := hmono (Nat.le_of_succ_le hik)
    have hi := hread i (Nat.le_of_succ_le hik)
    have hk := hread k le_rfl
    omega
  · obtain ⟨-, hreached⟩ := pollWhile_spec h
    -- the end does not wrap around, so the register does not before the ticks are over
    have hk := hread k le_rfl
    omega

/-- A wait over the end of the 24-bit timer: the first loop ends at access 1, the second one at access 2. -/
theorem waitMilliseconds_elapsed_wrapped :
    waitMilliseconds 0 1 (fun i => (16777000 + 3600 * i) % 2 ^ 24) 5 = some 2 ∧
      16777000 + kPMTimerFreq * 1 / 1000 ≤ 16777000 + 3600 * 2 := by
  have hret : waitMilliseconds 0 1 (fun i => (16777000 + 3600 * i) % 2 ^ 24) 5 = some 2 := by decide
  have hmono : Monotone fun i => 16777000 + 3600 * i := fun i j hij => by
    dsimp only
    omega
  exact ⟨hret, waitMilliseconds_elapsed hmono (fun _ => rfl) (by decide) (by decide) hret⟩

end MikanOS.Acpi
