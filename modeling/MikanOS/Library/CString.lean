import Mathlib

/-! # C strings

Zero-terminated strings in an array of bytes, and the functions of the C library that walk along
them. -/

namespace CString

variable {m : List UInt8} {p i n : Nat} {c d : UInt8} {f : UInt8 → Bool}

/-- The string that begins at `p`. -/
def string (m : List UInt8) (p : Nat) : List UInt8 := (m.drop p).takeWhile (· ≠ 0)

/-- The first `c` in the string that begins at `p`. -/
def strchr (m : List UInt8) (p : Nat) (c : UInt8) : Option Nat :=
  if c ∈ string m p then some (p + (string m p).idxOf c) else none

/-- The place behind the bytes from `p` on that satisfy `f`. -/
def skip (f : UInt8 → Bool) (m : List UInt8) (p : Nat) : Nat := p + ((m.drop p).takeWhile f).length

/-- A walk stops at the first byte that does not satisfy its condition. -/
theorem length_takeWhile_le (hc : f c = false) : ∀ {m : List UInt8} {k : Nat}, m[k]? = some c →
    (m.takeWhile f).length ≤ k
  | d :: m, k, hk => by
    cases hd : f d with
    | false => simp [hd]
    | true =>
      cases k with
      | zero =>
        cases hk
        cases hc.symm.trans hd
      | succ k =>
        rw [List.takeWhile_cons_of_pos hd, List.length_cons]
        exact Nat.succ_le_succ (length_takeWhile_le hc hk)

theorem add_length_takeWhile_le (hn : m[n]? = some c) (hc : f c = false) (hp : p ≤ n) :
    p + ((m.drop p).takeWhile f).length ≤ n := by
  have hget : (m.drop p)[n - p]? = some c := by
    rw [List.getElem?_drop, Nat.add_sub_cancel' hp]
    exact hn
  have := length_takeWhile_le hc hget
  omega

/-- A string ends at the latest where there is a zero. -/
theorem add_length_string_le (hn : m[n]? = some 0) (hp : p ≤ n) :
    p + (string m p).length ≤ n := add_length_takeWhile_le hn (by decide) hp

theorem le_skip (f : UInt8 → Bool) (m : List UInt8) (p : Nat) : p ≤ skip f m p := Nat.le_add_right _ _

theorem skip_le (hf : f 0 = false) (hn : m[n]? = some 0) (hp : p ≤ n) : skip f m p ≤ n :=
  add_length_takeWhile_le hn hf hp

theorem strchr_eq_some (h : strchr m p c = some i) : p ≤ i ∧ i < p + (string m p).length ∧
    m[i]? = some c := by
  obtain ⟨hmem, hi⟩ := Option.ite_none_right_eq_some.mp h
  obtain rfl := Option.some.inj hi
  have hlt := List.idxOf_lt_length_of_mem hmem
  refine ⟨Nat.le_add_right _ _, Nat.add_lt_add_left hlt p, ?_⟩
  have hget : (string m p)[(string m p).idxOf c]? = some c := by
    rw [List.getElem?_eq_getElem hlt, List.getElem_idxOf]
  obtain ⟨rest, hrest⟩ := List.takeWhile_prefix (l := m.drop p) (· ≠ (0 : UInt8))
  rw [← List.getElem?_drop, ← hrest]
  exact (List.getElem?_append_left hlt).trans hget

/-- Without what a first condition takes, as much is left as where both conditions are taken at once. -/
theorem takeWhile_take_length (f g : UInt8 → Bool) (s : List UInt8) :
    (s.takeWhile f).take (s.takeWhile g).length = s.takeWhile fun d => f d && g d := by
  induction s with
  | nil => rfl
  | cons d s ih =>
    cases hf : f d <;> cases hg : g d <;> simp [hf, hg, ih]

theorem idxOf_eq_length_takeWhile {s : List UInt8} (hc : c ∈ s) :
    s.idxOf c = (s.takeWhile (· ≠ c)).length := by
  induction s with
  | nil => cases hc
  | cons d s ih =>
    by_cases hd : d = c
    · simp [hd]
    · rw [List.idxOf_cons_ne _ hd, ih (List.mem_of_ne_of_mem (Ne.symm hd) hc)]
      simp [hd]

/-- A string ends where a zero is stored. -/
theorem string_set_zero (m : List UInt8) (i : Nat) : string (m.set i 0) 0 = (string m 0).take i := by
  rw [string, string, List.drop_zero, List.drop_zero]
  induction m generalizing i with
  | nil => simp
  | cons d m ih =>
    cases i with
    | zero => simp
    | succ i =>
      rw [List.set_cons_succ]
      by_cases hd : d = 0
      · simp [hd]
      · have hd : decide (d ≠ 0) = true := decide_eq_true hd
        simp only [List.takeWhile_cons, hd, if_true, List.take_succ_cons, ih]

/-! ## Beginnings and what remains -/

section

variable {α : Type*} {f g : α → Bool}

theorem drop_length_takeWhile (f : α → Bool) (s : List α) :
    s.drop (s.takeWhile f).length = s.dropWhile f := by
  induction s with
  | nil => rfl
  | cons c s ih => cases hc : f c <;> simp [hc, ih]

theorem takeWhile_dropWhile_of_imp (h : ∀ c, f c = true → g c = true) (s : List α) :
    (s.dropWhile f).takeWhile g = (s.takeWhile g).dropWhile f := by
  induction s with
  | nil => rfl
  | cons c s ih =>
    cases hf : f c with
    | true => simp [hf, h c hf, ih]
    | false => cases hg : g c <;> simp [hf, hg]

theorem take_length_takeWhile (f : α → Bool) (s : List α) :
    s.take (s.takeWhile f).length = s.takeWhile f := by
  induction s with
  | nil => rfl
  | cons c s ih => cases hc : f c <;> simp [hc, ih]

theorem takeWhile_congr {s : List α} (h : ∀ c ∈ s, f c = g c) : s.takeWhile f = s.takeWhile g := by
  induction s with
  | nil => rfl
  | cons c s ih =>
    rw [List.takeWhile_cons, List.takeWhile_cons, h c (List.mem_cons_self ..),
      ih fun d hd => h d (List.mem_cons_of_mem c hd)]

/-- What remains of a beginning is the beginning of what remains. -/
theorem takeWhile_drop {k : Nat} {s : List α} (h : k ≤ (s.takeWhile f).length) :
    (s.drop k).takeWhile f = (s.takeWhile f).drop k := by
  induction k generalizing s with
  | zero => rfl
  | succ k ih =>
    cases s with
    | nil => rfl
    | cons c s =>
      cases hc : f c with
      | false => simp [hc] at h
      | true =>
        rw [List.takeWhile_cons_of_pos hc] at h ⊢
        exact ih (Nat.le_of_succ_le_succ h)

end

theorem string_drop (m : List UInt8) (p : Nat) : string m p = string (m.drop p) 0 := by
  rw [string, string, List.drop_zero]

/-- The string that begins inside a string. -/
theorem string_add {k : Nat} (h : k ≤ (string m p).length) : string m (p + k) = (string m p).drop k := by
  rw [string, ← List.drop_drop, takeWhile_drop h, string]

/-- The string behind what is skipped. -/
theorem string_skip (hf : f 0 = false) (m : List UInt8) (p : Nat) :
    string m (skip f m p) = (string m p).dropWhile f := by
  rw [string, skip, ← List.drop_drop, drop_length_takeWhile, string, takeWhile_dropWhile_of_imp]
  intro d hd
  refine decide_eq_true fun h => ?_
  rw [h, hf] at hd
  cases hd

/-- A zero ends the strings that begin before it. -/
theorem string_set (m : List UInt8) (i p : Nat) :
    string (m.set i 0) p = if i < p then string m p else (string m p).take (i - p) := by
  split
  · rename_i h
    rw [string, List.drop_set_of_lt h, string]
  · rename_i h
    rw [string_drop, List.drop_set, if_neg h, string_set_zero, ← string_drop]

/-- `m` with a zero at a place, if there is one. -/
def zeroAt (m : List UInt8) : Option Nat → List UInt8
  | none => m
  | some i => m.set i 0

@[simp] theorem length_zeroAt (m : List UInt8) (i : Option Nat) : (zeroAt m i).length = m.length := by
  cases i <;> simp [zeroAt]

/-- Zeros stay. -/
theorem getElem?_zeroAt (h : m[n]? = some 0) (i : Option Nat) : (zeroAt m i)[n]? = some 0 := by
  cases i with
  | none => exact h
  | some i =>
    rw [zeroAt, List.getElem?_set]
    split
    · have := (List.getElem?_eq_some_iff.mp h).1
      simp_all
    · exact h

/-- Cut at the first `c`, a string whose beginning satisfies `f` until its end is shorter. -/
theorem string_zeroAt_strchr {m' : List UInt8} (hm : string m' 0 = (string m 0).takeWhile f) (c : UInt8) :
    string (zeroAt m' (strchr m 0 c)) 0 = (string m 0).takeWhile fun d => f d && d ≠ c := by
  rw [← takeWhile_take_length, ← hm]
  by_cases hc : c ∈ string m 0
  · rw [strchr, if_pos hc, zeroAt, string_set_zero, Nat.zero_add, idxOf_eq_length_takeWhile hc]
  · have hall : (string m 0).takeWhile (fun d => decide (d ≠ c)) = string m 0 :=
      List.takeWhile_eq_self_iff.mpr fun d hd => decide_eq_true fun h => hc (h ▸ hd)
    rw [strchr, if_neg hc, zeroAt, hall, hm, List.take_of_length_le]
    exact (List.takeWhile_sublist f).length_le

theorem strchr_eq_none : strchr m p c = none ↔ c ∉ string m p := by
  rw [strchr]
  split <;> simp [*]

/-! ## Stores that stay in the array -/

/-- `bytes` in the places from `p` on, if the array has these. -/
def storeBytes (m : List UInt8) (p : Nat) (bytes : List UInt8) : Option (List UInt8) :=
  if p + bytes.length ≤ m.length then some (m.take p ++ (bytes ++ m.drop (p + bytes.length))) else none

/-- `src`, with a zero behind it, at the end of the string in `m`. -/
def strcat (m src : List UInt8) : Option (List UInt8) :=
  storeBytes m (string m 0).length (string src 0 ++ [0])

theorem storeBytes_append {front old back bytes : List UInt8} (hp : front.length = p)
    (h : old.length = bytes.length) :
    storeBytes (front ++ (old ++ back)) p bytes = some (front ++ (bytes ++ back)) := by
  subst hp
  have hle : front.length + bytes.length ≤ (front ++ (old ++ back)).length := by
    rw [List.length_append, List.length_append, h]
    omega
  rw [storeBytes, if_pos hle, ← List.drop_drop, List.drop_left, List.take_left, ← h, List.drop_left]

theorem drop_append_append {front mid back : List UInt8} (h : front.length + mid.length ≤ n) :
    (front ++ (mid ++ back)).drop n = back.drop (n - (front.length + mid.length)) := by
  rw [← List.append_assoc, List.drop_append, List.length_append,
    List.drop_of_length_le (by rw [List.length_append]; exact h), List.nil_append]

/-- A string in front of a zero. -/
theorem string_append_zero (s back : List UInt8) :
    string (s ++ 0 :: back) 0 = s.takeWhile (· ≠ 0) := by
  rw [string, List.drop_zero]
  induction s with
  | nil => rfl
  | cons c s ih =>
    rw [List.cons_append, List.takeWhile_cons, List.takeWhile_cons, ih]

theorem zero_notMem_string (m : List UInt8) (p : Nat) : 0 ∉ string m p := fun h => by
  have h0 := List.mem_takeWhile_imp h
  cases h0

/-- What `strcat` stores ends the string again, and keeps what is behind it. -/
theorem strcat_eq {src : List UInt8} (h : (string m 0).length + (string src 0).length < m.length) :
    ∃ m', strcat m src = some m' ∧ string m' 0 = string m 0 ++ string src 0 ∧
      m'.length = m.length ∧ ∀ n, (string m 0).length + (string src 0).length < n → m'.drop n = m.drop n := by
  have hle : (string m 0).length + (string src 0 ++ [0]).length ≤ m.length := by
    rw [List.length_append, List.length_singleton]
    omega
  have htake : m.take (string m 0).length = string m 0 := by
    rw [string, List.drop_zero, take_length_takeWhile]
  refine ⟨_, if_pos hle, ?_, ?_, fun n hn => ?_⟩
  · have hall : ∀ c ∈ string m 0 ++ string src 0, decide (c ≠ 0) = true := fun c hc =>
      decide_eq_true fun h0 => (List.mem_append.mp (h0 ▸ hc)).elim (zero_notMem_string m 0)
        (zero_notMem_string src 0)
    rw [htake, List.append_assoc, ← List.append_assoc, List.singleton_append, string_append_zero,
      List.takeWhile_eq_self_iff.mpr hall]
  · simp only [List.length_append, List.length_take, List.length_drop, List.length_singleton] at hle ⊢
    omega
  · rw [List.length_append, List.length_singleton] at hle ⊢
    rw [htake, drop_append_append (by rw [List.length_append, List.length_singleton]; omega), List.drop_drop,
      List.length_append, List.length_singleton]
    congr 1
    omega

end CString
