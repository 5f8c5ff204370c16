import Mathlib

/-! # Loading segments into a memory with holes

A memory that has bytes at some addresses only. Loading a segment fills holes with zeros and then stores
the segment's bytes, which fails at an address that is still a hole. -/

namespace SparseMemory

abbrev Memory (β : Type*) := Nat → Option β

variable {β : Type*} {mem mem' : Memory β} {a x n : Nat} {b : β} {bytes bytes' : List β}

open Classical in
/-- The holes among some addresses are filled. -/
noncomputable def fillHoles (mem : Memory β) (holes : Set Nat) (zero : β) : Memory β := fun a =>
  if a ∈ holes then some ((mem a).getD zero) else mem a

/-- Bytes are stored from an address on. -/
def store : Memory β → Nat → List β → Option (Memory β)
  | mem, _, [] => some mem
  | mem, a, b :: bytes =>
    if (mem a).isSome then store (Function.update mem a (some b)) (a + 1) bytes else none

theorem isSome_fillHoles {holes : Set Nat} {zero : β} :
    (fillHoles mem holes zero a).isSome ↔ a ∈ holes ∨ (mem a).isSome := by
  rw [fillHoles]
  split
  · next h => simp [h]
  · next h => simp [h]

theorem fillHoles_of_some {holes : Set Nat} {zero : β} (h : mem a = some b) :
    fillHoles mem holes zero a = some b := by
  rw [fillHoles, h, Option.getD_some, ite_self]

theorem fillHoles_empty (mem : Memory β) (zero : β) : fillHoles mem ∅ zero = mem :=
  funext fun a => if_neg (Set.notMem_empty a)

theorem isSome_update (h : (mem a).isSome) :
    (Function.update mem a (some b) x).isSome = (mem x).isSome := by
  by_cases hx : x = a
  · rw [hx, Function.update_self, Option.isSome_some, h]
  · rw [Function.update_of_ne hx]

theorem store_cons : store mem a (b :: bytes) =
    (if (mem a).isSome then some (Function.update mem a (some b)) else none).bind fun mem' =>
      store mem' (a + 1) bytes := by
  rw [store]
  split <;> rfl

theorem store_append : store mem a (bytes ++ bytes') =
    (store mem a bytes).bind fun mem' => store mem' (a + bytes.length) bytes' := by
  induction bytes generalizing mem a with
  | nil => rfl
  | cons b bytes ih =>
    rw [List.cons_append, store, store]
    split
    · rw [ih, List.length_cons, Nat.add_right_comm, Nat.add_assoc]
    · rfl

/-- A store succeeds where there are no holes. -/
theorem isSome_store : (store mem a bytes).isSome ↔ ∀ k < bytes.length, (mem (a + k)).isSome := by
  induction bytes generalizing mem a with
  | nil => simp [store]
  | cons b bytes ih =>
    rw [store]
    split
    · next h =>
      simp only [ih, isSome_update h, List.length_cons]
      constructor
      · intro hrest k hk
        cases k with
        | zero => exact h
        | succ k =>
          rw [← Nat.add_assoc, Nat.add_right_comm]
          exact hrest k (Nat.lt_of_succ_lt_succ hk)
      · intro hall k hk
        rw [Nat.add_right_comm]
        exact hall (k + 1) (Nat.succ_lt_succ hk)
    · next h => exact iff_of_false (by simp) fun hall => h (hall 0 (Nat.succ_pos _))

theorem store_apply (h : store mem a bytes = some mem') (x : Nat) :
    mem' x = if a ≤ x ∧ x < a + bytes.length then bytes[x - a]? else mem x := by
  induction bytes generalizing mem a with
  | nil =>
    obtain rfl := Option.some.inj h
    rw [List.length_nil, if_neg (by omega)]
  | cons b bytes ih =>
    rw [store, Option.ite_none_right_eq_some] at h
    rw [ih h.2, List.length_cons]
    rcases Nat.lt_trichotomy x a with hlt | rfl | hlt
    · rw [if_neg (by omega), if_neg (by omega), Function.update_of_ne hlt.ne]
    · rw [if_neg (by omega), if_pos (by omega), Function.update_self, Nat.sub_self,
        List.getElem?_cons_zero]
    · rw [Function.update_of_ne hlt.ne', show x - a = x - (a + 1) + 1 by omega,
        List.getElem?_cons_succ]
      congr 1
      exact propext (by omega)

theorem isSome_of_store (h : store mem a bytes = some mem') (x : Nat) :
    (mem' x).isSome = (mem x).isSome := by
  have hall := isSome_store.mp (Option.isSome_iff_exists.mpr ⟨mem', h⟩)
  rw [store_apply h]
  split
  · next hx =>
    have hmem := hall (x - a) (by omega)
    rw [Nat.add_sub_cancel' hx.1] at hmem
    rw [hmem, List.getElem?_eq_getElem (by omega), Option.isSome_some]
  · rfl

/-- The bytes of a segment, and the addresses that become memory before they are stored. -/
structure Segment (β : Type*) where
  start : Nat
  bytes : List β
  holes : Set Nat

noncomputable def loadSegment (zero : β) (mem : Memory β) (s : Segment β) : Option (Memory β) :=
  store (fillHoles mem s.holes zero) s.start s.bytes

/-- The first segments are loaded into the empty memory. -/
noncomputable def load (zero : β) (seg : Nat → Segment β) : Nat → Option (Memory β)
  | 0 => some fun _ => none
  | n + 1 => (load zero seg n).bind fun mem => loadSegment zero mem (seg n)

variable {zero : β} {seg : Nat → Segment β}

theorem load_succ (h : load zero seg n = some mem) :
    load zero seg (n + 1) = loadSegment zero mem (seg n) := by
  rw [load, h, Option.bind_some]

theorem load_none (h : load zero seg n = none) {n' : Nat} (hle : n ≤ n') : load zero seg n' = none := by
  induction n', hle using Nat.le_induction with
  | base => exact h
  | succ n' _ ih => rw [load, ih, Option.bind_none]

/-- After loading there is memory where a segment asked for it. -/
theorem isSome_of_load (h : load zero seg n = some mem) (x : Nat) :
    (mem x).isSome ↔ ∃ i < n, x ∈ (seg i).holes := by
  induction n generalizing mem with
  | zero =>
    obtain rfl := Option.some.inj h
    simp
  | succ n ih =>
    obtain ⟨mem₁, h₁, h₂⟩ := Option.bind_eq_some_iff.mp h
    rw [isSome_of_store h₂, isSome_fillHoles, ih h₁]
    constructor
    · rintro (hx | ⟨i, hi, hx⟩)
      · exact ⟨n, Nat.lt_succ_self n, hx⟩
      · exact ⟨i, Nat.lt_succ_of_lt hi, hx⟩
    · rintro ⟨i, hi, hx⟩
      rcases Nat.lt_succ_iff_lt_or_eq.mp hi with hi | rfl
      · exact .inr ⟨i, hi, hx⟩
      · exact .inl hx

/-- Loading succeeds just when each byte has been asked for by its segment or an earlier one. -/
theorem isSome_load : (load zero seg n).isSome ↔
    ∀ i < n, ∀ k < (seg i).bytes.length, ∃ j ≤ i, (seg i).start + k ∈ (seg j).holes := by
  induction n with
  | zero => simp [load]
  | succ n ih =>
    have hstep : (load zero seg (n + 1)).isSome ↔ (load zero seg n).isSome ∧
        ∀ k < (seg n).bytes.length, ∃ j ≤ n, (seg n).start + k ∈ (seg j).holes := by
      cases h : load zero seg n with
      | none =>
        rw [load, h]
        simp
      | some mem =>
        rw [load_succ h, loadSegment, isSome_store, Option.isSome_some, eq_self, true_and]
        refine forall₂_congr fun k _ => ?_
        rw [isSome_fillHoles, isSome_of_load h]
        constructor
        · rintro (hx | ⟨j, hj, hx⟩)
          · exact ⟨n, le_rfl, hx⟩
          · exact ⟨j, hj.le, hx⟩
        · rintro ⟨j, hj, hx⟩
          rcases hj.eq_or_lt with rfl | hj
          · exact .inl hx
          · exact .inr ⟨j, hj, hx⟩
    rw [hstep, ih]
    constructor
    · rintro ⟨hall, hlast⟩ i hi
      rcases Nat.lt_succ_iff_lt_or_eq.mp hi with hi | rfl
      · exact hall i hi
      · exact hlast
    · exact fun hall => ⟨fun i hi => hall i (Nat.lt_succ_of_lt hi), hall n (Nat.lt_succ_self n)⟩

/-- Segments that have no address in common are all there afterwards. -/
theorem load_holds (h : load zero seg n = some mem)
    (hdisjoint : ∀ i < n, ∀ j < n, i ≠ j → ∀ k < (seg i).bytes.length, ∀ l < (seg j).bytes.length,
      (seg i).start + k ≠ (seg j).start + l) {i : Nat} (hi : i < n) {k : Nat}
    (hk : k < (seg i).bytes.length) : mem ((seg i).start + k) = (seg i).bytes[k]? := by
  induction n generalizing mem with
  | zero => exact absurd hi (Nat.not_lt_zero i)
  | succ n ih =>
    obtain ⟨mem₁, h₁, h₂⟩ := Option.bind_eq_some_iff.mp h
    rw [store_apply h₂]
    rcases Nat.lt_succ_iff_lt_or_eq.mp hi with hlt | rfl
    · have hmem := ih h₁ (fun i hi j hj => hdisjoint i (Nat.lt_succ_of_lt hi) j (Nat.lt_succ_of_lt hj)) hlt
      rw [if_neg]
      · rw [List.getElem?_eq_getElem hk] at hmem ⊢
        exact fillHoles_of_some hmem
      · rintro ⟨hlo, hhi⟩
        refine hdisjoint i hi n (Nat.lt_succ_self n) hlt.ne k hk ((seg i).start + k - (seg n).start) ?_ ?_ <;>
          omega
    · rw [if_pos (by omega), Nat.add_sub_cancel_left]

end SparseMemory
