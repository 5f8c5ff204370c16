import Mathlib

/-! # Queues by level

A family of queues, one for each level, that represents a partial map from elements to levels:
an element stands exactly once in the queue of its level and in no other queue. Each operation on
the queues is an update of that map. -/

namespace LevelQueues

variable {α : Type*} {q : Nat → List α} {level : α → Option Nat}
  {a : α} {l : Nat} {rest : List α}

/-- `q` represents `level`. -/
structure Represents (q : Nat → List α) (level : α → Option Nat) : Prop where
  nodup : ∀ l, (q l).Nodup
  mem_iff : ∀ l a, a ∈ q l ↔ level a = some l

/-- `l` is the highest level with a non-empty queue. -/
structure IsTop (q : Nat → List α) (l : Nat) : Prop where
  nonempty : q l ≠ []
  le_top : ∀ l', q l' ≠ [] → l' ≤ l

namespace Represents

theorem exists_mem (H : Represents q level) (ha : level a = some l) : q l ≠ [] :=
  List.ne_nil_of_mem ((H.mem_iff l a).mpr ha)

theorem not_mem_of_none (H : Represents q level) (ha : level a = none) (l : Nat) : a ∉ q l :=
  fun h => by simp [(H.mem_iff l a).mp h] at ha

/-- An element of the queue of `l` stands in no other queue. -/
private theorem not_mem_of_ne (H : Represents q level) (ha : level a = some l) {l' : Nat}
    (hl : l' ≠ l) : a ∉ q l' := by
  intro h
  have := (H.mem_iff l' a).mp h
  rw [ha] at this
  exact hl (Option.some.inj this).symm

variable [DecidableEq α]

/-- Replacing one queue moves only the elements whose membership in it changes. -/
private theorem update_queue (H : Represents q level) {new : List α} {lv : Option Nat}
    (hnd : new.Nodup) (hself : a ∈ new ↔ lv = some l) (hother : ∀ b, b ≠ a → (b ∈ new ↔ b ∈ q l))
    (hout : ∀ l', l' ≠ l → (a ∈ q l' ↔ lv = some l')) :
    Represents (Function.update q l new) (Function.update level a lv) := by
  constructor
  · intro l'
    by_cases h : l' = l
    · subst h
      rwa [Function.update_self]
    · rw [Function.update_of_ne h]
      exact H.nodup l'
  · intro l' b
    by_cases h : l' = l
    · subst h
      rw [Function.update_self]
      by_cases hb : b = a
      · subst hb
        rw [Function.update_self]
        exact hself
      · rw [Function.update_of_ne hb, hother b hb]
        exact H.mem_iff l' b
    · rw [Function.update_of_ne h]
      by_cases hb : b = a
      · subst hb
        rw [Function.update_self]
        exact hout l' h
      · rw [Function.update_of_ne hb]
        exact H.mem_iff l' b

omit [DecidableEq α] in
theorem empty : Represents (fun _ => ([] : List α)) fun _ => none :=
  ⟨fun _ => .nil, fun _ _ => by simp⟩

theorem pushBack (H : Represents q level) (ha : level a = none) (l : Nat) :
    Represents (Function.update q l (q l ++ [a])) (Function.update level a (some l)) := by
  have hmem := H.not_mem_of_none ha
  refine H.update_queue ?_ (by simp) (fun b hb => by simp [hb]) fun l' hl => ?_
  · have : [a].Disjoint (q l) := by simpa using hmem l
    exact (H.nodup l).append (List.nodup_singleton a) this.symm
  · simpa [hmem l'] using Ne.symm hl

theorem pushFront (H : Represents q level) (ha : level a = none) (l : Nat) :
    Represents (Function.update q l (a :: q l)) (Function.update level a (some l)) := by
  have hmem := H.not_mem_of_none ha
  refine H.update_queue (List.nodup_cons.mpr ⟨hmem l, H.nodup l⟩) (by simp)
    (fun b hb => by simp [hb]) fun l' hl => ?_
  simpa [hmem l'] using Ne.symm hl

theorem erase (H : Represents q level) (ha : level a = some l) :
    Represents (Function.update q l ((q l).filter (· ≠ a))) (Function.update level a none) := by
  refine H.update_queue ((H.nodup l).filter _) (by simp) (fun b hb => by simp [hb])
    fun l' hl => ?_
  simp [H.not_mem_of_ne ha hl]

theorem popFront (H : Represents q level) (hq : q l = a :: rest) :
    Represents (Function.update q l rest) (Function.update level a none) := by
  have ha : level a = some l := (H.mem_iff l a).mp (by simp [hq])
  have hnd := H.nodup l
  rw [hq, List.nodup_cons] at hnd
  refine H.update_queue hnd.2 (by simp [hnd.1]) (fun b hb => by simp [hq, hb]) fun l' hl => ?_
  simp [H.not_mem_of_ne ha hl]

/-- Moving the front of a queue to its back. -/
theorem rotate (H : Represents q level) (hq : q l = a :: rest) :
    Represents (Function.update q l (rest ++ [a])) level := by
  have hpop := H.popFront hq
  have hpush := hpop.pushBack (Function.update_self a none level) l
  have ha : level a = some l := (H.mem_iff l a).mp (by simp [hq])
  simpa [← ha] using hpush

/-- Over the levels `0..k` an element at a level `≤ k` occurs exactly once. -/
theorem count_eq_one (H : Represents q level) (ha : level a = some l) {k : Nat} (hl : l ≤ k) :
    ((List.range (k + 1)).flatMap q).count a = 1 := by
  induction k with
  | zero =>
    obtain rfl := Nat.le_zero.mp hl
    have := List.count_eq_one_of_mem (H.nodup 0) ((H.mem_iff 0 a).mpr ha)
    simpa using this
  | succ k ih =>
    rw [List.range_succ, List.flatMap_append, List.count_append, List.flatMap_singleton]
    rcases Nat.lt_or_eq_of_le hl with hlt | rfl
    · rw [ih (Nat.le_of_lt_succ hlt),
        List.count_eq_zero_of_not_mem (H.not_mem_of_ne ha (Nat.ne_of_gt hlt))]
    · rw [List.count_eq_one_of_mem (H.nodup _) ((H.mem_iff _ a).mpr ha),
        List.count_eq_zero_of_not_mem]
      simp only [List.mem_flatMap, List.mem_range, not_exists, not_and]
      exact fun l' hl' => H.not_mem_of_ne ha (Nat.ne_of_lt hl')

end Represents

end LevelQueues
