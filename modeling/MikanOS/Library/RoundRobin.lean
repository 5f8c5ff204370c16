import Mathlib

/-! # Places in a queue

Who stands ahead of an element of a queue, and which changes of the queue let nobody overtake: elements
may leave, newcomers join behind, and only the one that has the turn may stand in front or go
behind. -/

namespace RoundRobin

variable {α : Type*} [DecidableEq α] {a b e w : α} {q q' : List α}

/-- Those before the first occurrence of `a`. -/
def ahead (a : α) (q : List α) : List α := q.takeWhile (· ≠ a)

theorem ahead_cons_self (a : α) (q : List α) : ahead a (a :: q) = [] := by
  simp [ahead]

theorem ahead_cons_of_ne (h : b ≠ a) (q : List α) : ahead a (b :: q) = b :: ahead a q := by
  simp [ahead, h]

theorem ahead_subset (a : α) (q : List α) : ahead a q ⊆ q := List.takeWhile_subset _

theorem ne_of_mem_ahead (h : w ∈ ahead a q) : w ≠ a := by
  simpa using List.mem_takeWhile_imp h

/-- The front stands ahead of all others. -/
theorem head_mem_ahead (hw : q.head? = some w) (hne : w ≠ a) : w ∈ ahead a q := by
  obtain ⟨rest, rfl⟩ := List.head?_eq_some_iff.mp hw
  rw [ahead_cons_of_ne hne]
  exact List.mem_cons_self

theorem ahead_append_of_notMem (h : a ∉ q) (back : List α) :
    ahead a (q ++ back) = q ++ ahead a back := by
  refine List.takeWhile_append_of_pos fun c hc => ?_
  exact decide_eq_true fun hca => h (hca ▸ hc)

theorem ahead_append_of_mem (h : a ∈ q) (back : List α) : ahead a (q ++ back) = ahead a q := by
  obtain ⟨first, rest, rfl, hfirst⟩ := List.eq_append_cons_of_mem h
  rw [List.append_assoc, List.cons_append, ahead_append_of_notMem hfirst,
    ahead_append_of_notMem hfirst, ahead_cons_self, ahead_cons_self]

theorem ahead_filter {p : α → Bool} (h : p a = true) (q : List α) :
    ahead a (q.filter p) = (ahead a q).filter p := by
  induction q with
  | nil => rfl
  | cons c q ih =>
    by_cases hc : c = a
    · subst hc
      rw [List.filter_cons_of_pos h, ahead_cons_self, ahead_cons_self, List.filter_nil]
    · cases hp : p c with
      | true =>
        rw [List.filter_cons_of_pos hp, ahead_cons_of_ne hc, ahead_cons_of_ne hc,
          List.filter_cons_of_pos hp, ih]
      | false =>
        have hp : ¬p c = true := by simp [hp]
        rw [List.filter_cons_of_neg hp, ahead_cons_of_ne hc, List.filter_cons_of_neg hp, ih]

/-- A change of a queue while `e` has the turn: elements leave, `e` may come in front, and newcomers and
`e` may join behind. -/
def Requeued (e : α) (q q' : List α) : Prop :=
  ∃ (p : α → Bool) (front back : List α), q' = front ++ q.filter p ++ back ∧
    (∀ w ∈ front, w = e) ∧ ∀ w ∈ back, w = e ∨ w ∉ q

/-- The change of a queue when `e` gives up its turn: it leaves, or goes behind, or a newcomer does. -/
def Rotated (e : α) (q q' : List α) : Prop :=
  ∃ back : List α, q' = q.filter (· ≠ e) ++ back ∧ back.length ≤ 1 ∧ ∀ w ∈ back, w = e ∨ w ∉ q

namespace Requeued

omit [DecidableEq α] in
theorem refl (e : α) (q : List α) : Requeued e q q :=
  ⟨fun _ => true, [], [], by simp, fun _ h => (by cases h), fun _ h => (by cases h)⟩

omit [DecidableEq α] in
theorem filter (e : α) (q : List α) (p : α → Bool) : Requeued e q (q.filter p) :=
  ⟨p, [], [], by simp, fun _ h => (by cases h), fun _ h => (by cases h)⟩

omit [DecidableEq α] in
theorem append (h : w ∉ q) : Requeued e q (q ++ [w]) :=
  ⟨fun _ => true, [], [w], by simp, fun _ h => (by cases h),
    fun _ hv => .inr (List.mem_singleton.mp hv ▸ h)⟩

omit [DecidableEq α] in
theorem cons (e : α) (q : List α) : Requeued e q (e :: q) :=
  ⟨fun _ => true, [e], [], by simp, fun _ h => List.mem_singleton.mp h, fun _ h => (by cases h)⟩

/-- Nobody but `e` comes ahead of `a`. -/
theorem ahead_subset (H : Requeued e q q') (ha : a ∈ q) (ha' : a ∈ q') (hne : e ≠ a)
    (hw : w ∈ ahead a q') : w ∈ ahead a q ∨ w = e := by
  obtain ⟨p, front, back, rfl, hfront, hback⟩ := H
  have hnotfront : a ∉ front := fun h => hne (hfront a h).symm
  have hmem : a ∈ q.filter p := by
    rcases List.mem_append.mp ha' with h | h
    · exact (List.mem_append.mp h).resolve_left hnotfront
    · rcases hback a h with h | h
      · exact absurd h.symm hne
      · exact absurd ha h
  have hp : p a = true := (List.mem_filter.mp hmem).2
  rw [List.append_assoc, ahead_append_of_notMem hnotfront, ahead_append_of_mem hmem,
    ahead_filter hp] at hw
  rcases List.mem_append.mp hw with h | h
  · exact .inr (hfront w h)
  · exact .inl (List.mem_of_mem_filter h)

/-- Whoever stays, stays ahead of `a`. -/
theorem mem_ahead (H : Requeued e q q') (ha' : a ∈ q') (hne : e ≠ a) (hw : w ∈ ahead a q)
    (hwe : w ≠ e) (hw' : w ∈ q') (ha : a ∈ q) : w ∈ ahead a q' := by
  obtain ⟨p, front, back, rfl, hfront, hback⟩ := H
  have hmid : ∀ v, v ≠ e → v ∈ q → v ∈ front ++ q.filter p ++ back → v ∈ q.filter p := by
    intro v hv hvq hv'
    rcases List.mem_append.mp hv' with h | h
    · exact (List.mem_append.mp h).resolve_left fun h => hv (hfront v h)
    · rcases hback v h with h | h
      · exact absurd h hv
      · exact absurd hvq h
  have hnotfront : a ∉ front := fun h => hne (hfront a h).symm
  have hmem := hmid a hne.symm ha ha'
  rw [List.append_assoc, ahead_append_of_notMem hnotfront, ahead_append_of_mem hmem,
    ahead_filter (List.mem_filter.mp hmem).2]
  have hpw := (List.mem_filter.mp (hmid w hwe (RoundRobin.ahead_subset a q hw) hw')).2
  exact List.mem_append_right _ (List.mem_filter.mpr ⟨hw, hpw⟩)

end Requeued

namespace Rotated

theorem requeued (H : Rotated e q q') : Requeued e q q' := by
  obtain ⟨back, heq, -, hback⟩ := H
  exact ⟨_, [], back, heq, fun _ h => (by cases h), hback⟩

theorem mem (H : Rotated e q q') (hw : w ∈ q) (hne : w ≠ e) : w ∈ q' := by
  obtain ⟨back, rfl, -, -⟩ := H
  exact List.mem_append_left _ (List.mem_filter.mpr ⟨hw, decide_eq_true hne⟩)

/-- Whoever gives up its turn is behind the others. -/
theorem notMem_ahead (H : Rotated e q q') (ha : a ∈ q) (hne : e ≠ a) : e ∉ ahead a q' := by
  obtain ⟨back, rfl, -, -⟩ := H
  have hmem : a ∈ q.filter (· ≠ e) := List.mem_filter.mpr ⟨ha, decide_eq_true hne.symm⟩
  rw [ahead_append_of_mem hmem]
  intro h
  exact of_decide_eq_true (List.mem_filter.mp (RoundRobin.ahead_subset _ _ h)).2 rfl

/-- If it stays, all others are ahead of it. -/
theorem mem_ahead_self (H : Rotated e q q') (he : e ∈ q') (hw : w ∈ q') (hne : w ≠ e) :
    w ∈ ahead e q' := by
  obtain ⟨back, rfl, hlen, -⟩ := H
  have hnot : e ∉ q.filter (· ≠ e) := fun h => of_decide_eq_true (List.mem_filter.mp h).2 rfl
  have hback := (List.mem_append.mp he).resolve_left hnot
  obtain ⟨c, rfl⟩ := List.length_eq_one_iff.mp
    (Nat.le_antisymm hlen (List.length_pos_of_mem hback))
  obtain rfl := List.mem_singleton.mp hback
  rw [ahead_append_of_notMem hnot]
  exact List.mem_append_left _
    ((List.mem_append.mp hw).resolve_right fun h => hne (List.mem_singleton.mp h))

end Rotated

end RoundRobin
