import Mathlib

/-! # Priority queues

A queue of elements with a key whose top is an element with the least key. Which of several elements
with that key is on top is left open, as in a binary heap. -/

universe u v

/-- A priority queue over `α`, kept in a type `Q`. -/
structure PriorityQueue (α : Type u) (key : α → Nat) (Q : Type v) where
  contents : Q → Multiset α
  empty : Q
  push : Q → α → Q
  top : Q → Option α
  pop : Q → Q
  contents_empty : contents empty = 0
  contents_push : ∀ q a, contents (push q a) = a ::ₘ contents q
  top_eq_none : ∀ q, top q = none → contents q = 0
  key_top_le : ∀ q a, top q = some a → ∀ b ∈ contents q, key a ≤ key b
  contents_pop : ∀ q a, top q = some a → a ::ₘ contents (pop q) = contents q

namespace PriorityQueue

variable {α : Type u} {key : α → Nat} {Q : Type v} (P : PriorityQueue α key Q) {q : Q} {a : α}

attribute [simp] contents_empty contents_push

theorem exists_top (h : P.contents q ≠ 0) : ∃ a, P.top q = some a := by
  cases htop : P.top q with
  | none => exact absurd (P.top_eq_none q htop) h
  | some a => exact ⟨a, rfl⟩

theorem mem_of_top (h : P.top q = some a) : a ∈ P.contents q := by
  rw [← P.contents_pop q a h]
  exact Multiset.mem_cons_self a _

/-- Where nothing has a key up to `k`, neither has the top. -/
theorem lt_key_top {k : Nat} (h : P.top q = some a) (hk : k < key a) :
    ∀ b ∈ P.contents q, k < key b :=
  fun b hb => hk.trans_le (P.key_top_le q a h b hb)

/-- The queue of an unordered list, whose top is the first element with the least key. -/
def ofList [DecidableEq α] (key : α → Nat) : PriorityQueue α key (List α) where
  contents q := q
  empty := []
  push q a := a :: q
  top q := q.argmin key
  pop q := (q.argmin key).elim q q.erase
  contents_empty := rfl
  contents_push _ _ := rfl
  top_eq_none q h := by simpa using h
  key_top_le _ _ h _ hb := List.le_of_mem_argmin hb h
  contents_pop q a h := by
    rw [h, Option.elim_some, ← Multiset.coe_erase]
    exact Multiset.cons_erase (List.argmin_mem h)

end PriorityQueue
