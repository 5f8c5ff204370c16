import Mathlib

/-! # Forests of nodes in a store

Nodes of a store point to child nodes through their slots. `owner` gives the nodes that belong to a
tree the root of that tree and the path to them, the last slot first. The conditions of `Forest` are
about one node and its child at a time, so an update of one slot is checked at that slot; that no
node stands at two places is built in. -/

namespace OwnedForest

variable {N I : Type*}

/-- `owner` describes where the nodes stand that are reached from the roots through `kid`. -/
structure Forest (kid : N → I → Option N) (owner : N → Option (N × List I)) : Prop where
  root : ∀ n r, owner n = some (r, []) → n = r
  child : ∀ n r p i c, owner n = some (r, p) → kid n i = some c → owner c = some (r, i :: p)
  parent : ∀ c r i p, owner c = some (r, i :: p) → ∃ n, owner n = some (r, p) ∧ kid n i = some c

namespace Forest

variable {kid kid' : N → I → Option N} {owner : N → Option (N × List I)} {n c r : N} {p : List I}
  {i : I}

/-- A place holds one node. -/
theorem unique (H : Forest kid owner) {n n' : N} (h : owner n = some (r, p))
    (h' : owner n' = some (r, p)) : n = n' := by
  induction p generalizing n n' with
  | nil => rw [H.root n r h, H.root n' r h']
  | cons i p ih =>
    obtain ⟨m, hm, hkid⟩ := H.parent n r i p h
    obtain ⟨m', hm', hkid'⟩ := H.parent n' r i p h'
    rw [ih hm hm', hkid'] at hkid
    exact (Option.some.inj hkid).symm

/-- A root without children is alone in its tree. -/
theorem eq_root (H : Forest kid owner) (hr : ∀ i, kid r i = none) (h : owner n = some (r, p)) :
    n = r ∧ p = [] := by
  induction p generalizing n with
  | nil => exact ⟨H.root n r h, rfl⟩
  | cons i p ih =>
    obtain ⟨m, hm, hkid⟩ := H.parent n r i p h
    obtain ⟨rfl, rfl⟩ := ih hm
    rw [hr i] at hkid
    cases hkid

/-- The root of a tree is in it. -/
theorem root_mem (H : Forest kid owner) (h : owner n = some (r, p)) : owner r = some (r, []) := by
  induction p generalizing n with
  | nil => rwa [H.root n r h] at h
  | cons i p ih =>
    obtain ⟨m, hm, -⟩ := H.parent n r i p h
    exact ih hm

/-- So are the nodes on the way down. -/
theorem ancestor (H : Forest kid owner) {l : List I} (h : owner n = some (r, l ++ p)) :
    ∃ n', owner n' = some (r, p) := by
  induction l generalizing n with
  | nil => exact ⟨n, h⟩
  | cons i l ih =>
    obtain ⟨m, hm, -⟩ := H.parent n r i (l ++ p) h
    exact ih hm

/-- Only the slots of owned nodes matter. -/
theorem congr (H : Forest kid owner) (h : ∀ n, owner n ≠ none → kid' n = kid n) :
    Forest kid' owner where
  root := H.root
  child n r p i c hn hkid := H.child n r p i c hn (by rwa [h n (by simp [hn])] at hkid)
  parent c r i p hc := by
    obtain ⟨n, hn, hkid⟩ := H.parent c r i p hc
    exact ⟨n, hn, by rwa [h n (by simp [hn])]⟩

variable [DecidableEq N]

/-- A free node becomes a tree of its own. -/
theorem addRoot (H : Forest kid owner) (hr : owner r = none) (hkid : ∀ i, kid r i = none) :
    Forest kid (Function.update owner r (some (r, []))) where
  root n r' h := by
    by_cases hn : n = r
    · subst hn
      simp only [Function.update_self, Option.some.injEq, Prod.mk.injEq] at h
      exact h.1
    · exact H.root n r' (by rwa [Function.update_of_ne hn] at h)
  child n r' p i c h hk := by
    have hn : n ≠ r := fun hn => by simp [hn, hkid] at hk
    rw [Function.update_of_ne hn] at h
    have hc := H.child n r' p i c h hk
    rwa [Function.update_of_ne fun hcr => by simp [hcr, hr] at hc]
  parent c r' i p h := by
    have hc : c ≠ r := fun hc => by simp [hc] at h
    rw [Function.update_of_ne hc] at h
    obtain ⟨n, hn, hk⟩ := H.parent c r' i p h
    exact ⟨n, by rwa [Function.update_of_ne fun hnr => by simp [hnr, hr] at hn], hk⟩

/-- A root without children leaves the forest. -/
theorem removeRoot (H : Forest kid owner) (hr : owner r = some (r, []))
    (hkid : ∀ i, kid r i = none) : Forest kid (Function.update owner r none) where
  root n r' h := by
    have hn : n ≠ r := fun hn => by simp [hn] at h
    exact H.root n r' (by rwa [Function.update_of_ne hn] at h)
  child n r' p i c h hk := by
    have hn : n ≠ r := fun hn => by simp [hn] at h
    rw [Function.update_of_ne hn] at h
    have hc := H.child n r' p i c h hk
    rwa [Function.update_of_ne fun hcr => by simp [hcr, hr] at hc]
  parent c r' i p h := by
    have hc : c ≠ r := fun hc => by simp [hc] at h
    rw [Function.update_of_ne hc] at h
    obtain ⟨n, hn, hk⟩ := H.parent c r' i p h
    have hnr : n ≠ r := fun hnr => by simp [hnr, hkid] at hk
    exact ⟨n, by rwa [Function.update_of_ne hnr], hk⟩

variable [DecidableEq I]

/-- An empty slot of an owned node is pointed to a free node without children. -/
theorem adopt (H : Forest kid owner) (hn : owner n = some (r, p)) (hslot : kid n i = none)
    (hc : owner c = none) (hleaf : ∀ j, kid c j = none)
    (hkid : ∀ m j, kid' m j = if m = n ∧ j = i then some c else kid m j) :
    Forest kid' (Function.update owner c (some (r, i :: p))) := by
  have hnc : n ≠ c := fun h => by simp [h, hc] at hn
  refine ⟨fun m r' h => ?_, fun m r' q j d hm hk => ?_, fun d r' j q h => ?_⟩
  · have hmc : m ≠ c := fun hmc => by simp [hmc] at h
    exact H.root m r' (by rwa [Function.update_of_ne hmc] at h)
  · have hmc : m ≠ c := by
      intro hmc
      rw [hkid, hmc, if_neg (fun h => hnc h.1.symm), hleaf] at hk
      cases hk
    rw [Function.update_of_ne hmc] at hm
    rw [hkid] at hk
    split at hk
    · rename_i h
      obtain ⟨rfl, rfl⟩ := h
      cases hk
      rw [hn] at hm
      cases hm
      exact Function.update_self ..
    · have hd := H.child m r' q j d hm hk
      rwa [Function.update_of_ne fun hdc => by simp [hdc, hc] at hd]
  · by_cases hdc : d = c
    · subst hdc
      rw [Function.update_self] at h
      cases h
      refine ⟨n, by rwa [Function.update_of_ne hnc], ?_⟩
      rw [hkid, if_pos ⟨rfl, rfl⟩]
    · rw [Function.update_of_ne hdc] at h
      obtain ⟨m, hm, hk⟩ := H.parent d r' j q h
      have hmc : m ≠ c := fun hmc => by simp [hmc, hc] at hm
      refine ⟨m, by rwa [Function.update_of_ne hmc], ?_⟩
      rw [hkid, if_neg fun h => by simp [h.1, h.2, hslot] at hk]
      exact hk

/-- The slot of a child without children is emptied, and the child is free. -/
theorem release (H : Forest kid owner) (hn : owner n = some (r, p)) (hslot : kid n i = some c)
    (hleaf : ∀ j, kid c j = none)
    (hkid : ∀ m j, kid' m j = if m = n ∧ j = i then none else kid m j) :
    Forest kid' (Function.update owner c none) := by
  have hc := H.child n r p i c hn hslot
  have hnc : n ≠ c := fun h => by
    rw [h, hc] at hn
    simp at hn
  refine ⟨fun m r' h => ?_, fun m r' q j d hm hk => ?_, fun d r' j q h => ?_⟩
  · have hmc : m ≠ c := fun hmc => by simp [hmc] at h
    exact H.root m r' (by rwa [Function.update_of_ne hmc] at h)
  · have hmc : m ≠ c := fun hmc => by simp [hmc] at hm
    rw [Function.update_of_ne hmc] at hm
    rw [hkid] at hk
    split at hk
    · cases hk
    · rename_i hne
      have hd := H.child m r' q j d hm hk
      rwa [Function.update_of_ne fun hdc => ?_]
      -- the released node has one place only
      rw [hdc, hc] at hd
      cases hd
      exact hne ⟨H.unique hm hn, rfl⟩
  · have hdc : d ≠ c := fun hdc => by simp [hdc] at h
    rw [Function.update_of_ne hdc] at h
    obtain ⟨m, hm, hk⟩ := H.parent d r' j q h
    have hmc : m ≠ c := fun hmc => by simp [hmc, hleaf] at hk
    refine ⟨m, by rwa [Function.update_of_ne hmc], ?_⟩
    rw [hkid, if_neg fun hmj => ?_]
    · exact hk
    · rw [hmj.1, hmj.2, hslot] at hk
      exact hdc (Option.some.inj hk).symm

end Forest

end OwnedForest
