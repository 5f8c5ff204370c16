import Mathlib

/-! # Trees in a store, by their paths

The nodes of a store have slots with entries, and at each depth some entries link to a further node. A node
is known by the path to it from the root, the last slot first. The lemmas are about the paths after an
update that keeps all links or adds one. -/

namespace PathTree

variable {N I E : Type*} (links : Nat → E → Option N)

/-- The node at the end of a path. -/
def nodeAt (mem : N → I → E) (root : N) : List I → Option N
  | [] => some root
  | i :: p => (nodeAt mem root p).bind fun n => links p.length (mem n i)

/-- No node stands at two places. -/
def Apart (mem : N → I → E) (root : N) : Prop :=
  ∀ p q n, nodeAt links mem root p = some n → nodeAt links mem root q = some n → p = q

variable {links} {mem mem' : N → I → E} {root n c : N} {p q : List I} {i : I}

theorem nodeAt_cons (h : nodeAt links mem root p = some n) :
    nodeAt links mem root (i :: p) = links p.length (mem n i) := by
  rw [nodeAt, h, Option.bind_some]

theorem nodeAt_parent (h : nodeAt links mem root (i :: p) = some c) :
    ∃ n, nodeAt links mem root p = some n ∧ links p.length (mem n i) = some c :=
  Option.bind_eq_some_iff.mp h

/-- Only the links of nodes on the paths matter. -/
theorem nodeAt_congr (h : ∀ p n i, nodeAt links mem root p = some n →
    links p.length (mem' n i) = links p.length (mem n i)) (q : List I) :
    nodeAt links mem' root q = nodeAt links mem root q := by
  induction q with
  | nil => rfl
  | cons j q ih =>
    rw [nodeAt, nodeAt, ih]
    cases hq : nodeAt links mem root q with
    | none => rfl
    | some m => exact h q m j hq

variable [DecidableEq I]

/-- A slot without a link is linked to a node without links, which then stands at the slot. -/
theorem nodeAt_link (hn : nodeAt links mem root p = some n) (hslot : links p.length (mem n i) = none)
    (hlink : links p.length (mem' n i) = some c) (hleaf : ∀ d j, links d (mem' c j) = none)
    (hother : ∀ q m j, nodeAt links mem root q = some m → (q = p → j ≠ i) →
      links q.length (mem' m j) = links q.length (mem m j)) (q : List I) :
    nodeAt links mem' root q = if q = i :: p then some c else nodeAt links mem root q := by
  induction q with
  | nil => rfl
  | cons j q ih =>
    rw [nodeAt, ih]
    split
    · next hq =>
      have hne : j :: q ≠ i :: p := by
        intro h
        rw [hq] at h
        simpa using congrArg List.length h
      rw [Option.bind_some, hleaf, if_neg hne, hq, nodeAt, nodeAt_cons hn, hslot, Option.bind_none]
    · by_cases hqp : j :: q = i :: p
      · obtain ⟨rfl, rfl⟩ := List.cons.inj hqp
        rw [if_pos rfl, hn, Option.bind_some, hlink]
      · rw [if_neg hqp, nodeAt]
        cases hq : nodeAt links mem root q with
        | none => rfl
        | some m =>
          refine hother q m j hq fun h hj => hqp ?_
          rw [h, hj]

end PathTree
