import Mathlib

/-! # Preorder lists of a tree that is given by its edges

`out b` lists the edges that leave the node `b`, and `next e` is the node at the end of the edge `e`, if there
is one. The preorder list is cut off at a depth, so that it is there for every graph. In a tree it has no edge
twice. -/

namespace Preorder

variable {B E : Type*}

/-- The edges at a depth below `n` from `b` on, each before those below it. -/
def preorder (out : B → List E) (next : E → Option B) : Nat → B → List E
  | 0, _ => []
  | n + 1, b => (out b).flatMap fun e => e :: (next e).elim [] (preorder out next n)

/-- `n` edges lead from one node to another. -/
inductive Path (out : B → List E) (next : E → Option B) (a : B) : Nat → B → Prop
  | refl : Path out next a 0 a
  | snoc : Path out next a n b → e ∈ out b → next e = some c → Path out next a (n + 1) c

/-- The edge leaves a node that is reached from `a`. -/
def Reached (out : B → List E) (next : E → Option B) (a : B) (e : E) : Prop :=
  ∃ n b, Path out next a n b ∧ e ∈ out b

variable {out : B → List E} {next : E → Option B} {a b c root : B} {e : E} {k m n : Nat}

namespace Path

theorem trans (h : Path out next a m b) (h' : Path out next b n c) : Path out next a (m + n) c := by
  induction h' with
  | refl => exact h
  | snoc _ he hc ih => exact .snoc ih he hc

theorem cons (he : e ∈ out a) (hb : next e = some b) (h : Path out next b n c) :
    Path out next a (n + 1) c := by
  rw [Nat.add_comm]
  exact (snoc .refl he hb).trans h

theorem head (h : Path out next a (n + 1) c) :
    ∃ e ∈ out a, ∃ b, next e = some b ∧ Path out next b n c := by
  generalize hk : n + 1 = k at h
  induction h generalizing n with
  | refl => cases hk
  | @snoc m b e c h he hc ih =>
    obtain rfl := Nat.succ.inj hk
    cases n with
    | zero =>
      cases h with
      | refl => exact ⟨e, he, c, hc, .refl⟩
    | succ n =>
      obtain ⟨e', he', b', hb', h'⟩ := ih rfl
      exact ⟨e', he', b', hb', .snoc h' he hc⟩

end Path

theorem mem_preorder : e ∈ preorder out next n a ↔ ∃ k < n, ∃ b, Path out next a k b ∧ e ∈ out b := by
  induction n generalizing a with
  | zero => simp [preorder]
  | succ n ih =>
    rw [preorder, List.mem_flatMap]
    constructor
    · rintro ⟨e', he', hmem⟩
      rcases List.mem_cons.mp hmem with rfl | hmem
      · exact ⟨0, Nat.succ_pos n, a, .refl, he'⟩
      · cases hb : next e' with
        | none => rw [hb] at hmem; exact absurd hmem List.not_mem_nil
        | some b =>
          rw [hb] at hmem
          obtain ⟨k, hk, c, hc, he⟩ := ih.mp hmem
          exact ⟨k + 1, Nat.succ_lt_succ hk, c, .cons he' hb hc, he⟩
    · rintro ⟨k, hk, c, hc, he⟩
      cases k with
      | zero =>
        cases hc
        exact ⟨e, he, List.mem_cons_self⟩
      | succ k =>
        obtain ⟨e', he', b, hb, h⟩ := hc.head
        refine ⟨e', he', List.mem_cons_of_mem _ ?_⟩
        rw [hb]
        exact ih.mpr ⟨k, Nat.lt_of_succ_lt_succ hk, c, h, he⟩

/-- From some depth on, the list is complete. -/
theorem exists_complete [Finite E] (root : B) :
    ∃ N, ∀ n ≥ N, ∀ e, e ∈ preorder out next n root ↔ Reached out next root e := by
  classical
  have hdepth : ∀ e, ∃ d, Reached out next root e → ∃ k < d, ∃ b, Path out next root k b ∧ e ∈ out b := by
    intro e
    by_cases h : Reached out next root e
    · obtain ⟨k, b, hb, he⟩ := h
      exact ⟨k + 1, fun _ => ⟨k, Nat.lt_succ_self k, b, hb, he⟩⟩
    · exact ⟨0, fun h' => absurd h' h⟩
  choose d hd using hdepth
  obtain ⟨N, hN⟩ := (Set.finite_range d).bddAbove
  refine ⟨N, fun n hn e => mem_preorder.trans ⟨?_, fun h => ?_⟩⟩
  · rintro ⟨k, -, b, hb, he⟩
    exact ⟨k, b, hb, he⟩
  · obtain ⟨k, hk, hrest⟩ := hd e h
    exact ⟨k, hk.trans_le ((hN (Set.mem_range_self e)).trans hn), hrest⟩

/-- The edges that are reached form a tree: no two of them end at the same node, and none at the root. -/
structure IsTree (out : B → List E) (next : E → Option B) (root : B) : Prop where
  nodup : ∀ b, (out b).Nodup
  source : ∀ e b b', e ∈ out b → e ∈ out b' → b = b'
  unique : ∀ e e' b, Reached out next root e → Reached out next root e' →
    next e = some b → next e' = some b → e = e'
  root : ∀ e, Reached out next root e → next e ≠ some root

namespace IsTree

/-- A node has one depth. -/
theorem depth_unique (T : IsTree out next root) (h : Path out next root m b) (h' : Path out next root n b) :
    m = n := by
  induction h generalizing n with
  | refl =>
    cases h' with
    | refl => rfl
    | snoc h' he hb => exact absurd hb (T.root _ ⟨_, _, h', he⟩)
  | snoc h he hb ih =>
    cases h' with
    | refl => exact absurd hb (T.root _ ⟨_, _, h, he⟩)
    | snoc h' he' hb' =>
      obtain rfl := T.unique _ _ _ ⟨_, _, h, he⟩ ⟨_, _, h', he'⟩ hb hb'
      obtain rfl := T.source _ _ _ he he'
      rw [ih h']

/-- A node is below one node of each depth. -/
theorem ancestor_unique (T : IsTree out next root) {a' : B} (ha : Path out next root m a)
    (ha' : Path out next root m a') (h : Path out next a k b) (h' : Path out next a' k b) : a = a' := by
  induction h with
  | refl => cases h' with | refl => rfl
  | snoc h he hb ih =>
    cases h' with
    | snoc h' he' hb' =>
      obtain rfl := T.unique _ _ _ ⟨_, _, ha.trans h, he⟩ ⟨_, _, ha'.trans h', he'⟩ hb hb'
      obtain rfl := T.source _ _ _ he he'
      exact ih h'

/-- An edge that leaves `b` is not below one that leaves `b`. -/
theorem notMem_below (T : IsTree out next root) {e' : E} (hb : Path out next root m b) (he : e ∈ out b)
    (he' : e' ∈ out b) : e ∉ (next e').elim [] (preorder out next n) := by
  intro hmem
  cases hc : next e' with
  | none => rw [hc] at hmem; exact absurd hmem List.not_mem_nil
  | some c =>
    rw [hc] at hmem
    obtain ⟨k, -, d, hd, hed⟩ := mem_preorder.mp hmem
    obtain rfl := T.source _ _ _ hed he
    have hdeep := T.depth_unique hb ((Path.snoc hb he' hc).trans hd)
    omega

/-- What is below two edges that leave `b` is below one of them. -/
theorem disjoint_below (T : IsTree out next root) {e' : E} (hb : Path out next root m b) (he : e ∈ out b)
    (he' : e' ∈ out b) (hne : e ≠ e') :
    List.Disjoint ((next e).elim [] (preorder out next n)) ((next e').elim [] (preorder out next n)) := by
  intro x hx hx'
  cases hc : next e with
  | none => rw [hc] at hx; exact absurd hx List.not_mem_nil
  | some c =>
  cases hc' : next e' with
  | none => rw [hc'] at hx'; exact absurd hx' List.not_mem_nil
  | some c' =>
    rw [hc] at hx
    rw [hc'] at hx'
    obtain ⟨k, -, d, hd, hxd⟩ := mem_preorder.mp hx
    obtain ⟨k', -, d', hd', hxd'⟩ := mem_preorder.mp hx'
    obtain rfl := T.source _ _ _ hxd hxd'
    have hp := Path.snoc hb he hc
    have hp' := Path.snoc hb he' hc'
    obtain rfl : k = k' := Nat.add_left_cancel (T.depth_unique (hp.trans hd) (hp'.trans hd'))
    obtain rfl := T.ancestor_unique hp hp' hd hd'
    exact hne (T.unique _ _ _ ⟨_, _, hb, he⟩ ⟨_, _, hb, he'⟩ hc hc')

theorem nodup_preorder (T : IsTree out next root) (hb : Path out next root m b) :
    (preorder out next n b).Nodup := by
  induction n generalizing b m with
  | zero => exact List.nodup_nil
  | succ n ih =>
    rw [preorder, List.nodup_flatMap]
    constructor
    · intro e he
      refine List.nodup_cons.mpr ⟨T.notMem_below hb he he, ?_⟩
      cases hc : next e with
      | none => exact List.nodup_nil
      | some c => exact ih (.snoc hb he hc)
    · refine (T.nodup b).imp_of_mem fun he he' hne => ?_
      refine List.disjoint_cons_left.mpr ⟨?_, List.disjoint_cons_right.mpr ⟨T.notMem_below hb he' he, ?_⟩⟩
      · exact List.not_mem_cons_of_ne_of_not_mem hne (T.notMem_below hb he he')
      · exact T.disjoint_below hb he he' hne

end IsTree

end Preorder
