import MikanOS.Fat.FullVolume
import MikanOS.Fat.RoundTrip

/-! # The chains of a table

`ExtendCluster` and `AllocateClusterChain` against all chains of the table: which chain becomes longer, which
entries change, and that the chains stay apart. -/

namespace MikanOS.Fat.Volume

open LinkedChain

/-- Chains of the table: each without a cycle and ended by a mark, and no two with a common cluster. -/
structure Chains (vol : Volume) (clusters : Nat) (chains : List (List Nat)) : Prop where
  chain : ∀ cs ∈ chains, ∃ c, vol.FileChain clusters c cs
  disjoint : chains.Pairwise List.Disjoint

/-- `ExtendCluster(c, n)` on a chain `cs` that stands between other chains. -/
structure Extends (vol : Volume) (clusters c n : Nat) (before : List (List Nat)) (cs : List Nat)
    (after : List (List Nat)) (new : List Nat) (last : Nat) (vol' : Volume) : Prop where
  returns : vol.extendCluster c n = some (last, vol')
  length : new.length = n
  nodup : new.Nodup
  free : ∀ x ∈ new, x ∈ vol.freeClusters clusters
  last_eq : (cs ++ new).getLast? = some last
  ended : vol'.fat last = kEndOfClusterchain
  fat_eq : ∀ x, x ∉ new → cs.getLast? ≠ some x → vol'.fat x = vol.fat x
  chains : vol'.Chains clusters (before ++ (cs ++ new) :: after)

/-- `AllocateClusterChain(n)` beside the chains that there are. -/
structure Allocates (vol : Volume) (clusters n : Nat) (chains : List (List Nat)) (new : List Nat) (first : Nat)
    (vol' : Volume) : Prop where
  returns : vol.allocateClusterChain n = some (first, vol')
  length : new.length = max n 1
  free : ∀ x ∈ new, x ∈ vol.freeClusters clusters
  head : new.head? = some first
  fat_eq : ∀ x, x ∉ new → vol'.fat x = vol.fat x
  chains : vol'.Chains clusters (new :: chains)

variable {vol vol' : Volume} {clusters c n : Nat} {before after : List (List Nat)} {cs new : List Nat}

/-- A chain of clusters that are in no other chain is put between the others. -/
theorem Chains.insert (H : vol.Chains clusters (before ++ after)) (hnew : vol'.FileChain clusters c new)
    (hapart : ∀ cs ∈ before ++ after, new.Disjoint cs) (hfat : ∀ x, x ∉ new → vol'.fat x = vol.fat x) :
    vol'.Chains clusters (before ++ new :: after) := by
  constructor
  · intro cs hcs
    rcases List.mem_cons.mp (List.perm_middle.mem_iff.mp hcs) with rfl | hother
    · exact ⟨c, hnew⟩
    · obtain ⟨c', hchain⟩ := H.chain cs hother
      exact ⟨c', hchain.congr fun x hx => hfat x fun hxnew => hapart cs hother hxnew hx⟩
  · rw [List.pairwise_middle List.Disjoint.symm, List.pairwise_cons]
    exact ⟨hapart, H.disjoint⟩

/-- The other chains, and that they have nothing in common with the chain between them. -/
theorem Chains.others (H : vol.Chains clusters (before ++ cs :: after)) :
    vol.Chains clusters (before ++ after) ∧ ∀ cs' ∈ before ++ after, cs.Disjoint cs' := by
  have hpairs := H.disjoint
  rw [List.pairwise_middle List.Disjoint.symm, List.pairwise_cons] at hpairs
  refine ⟨⟨fun cs' hcs' => H.chain cs' ?_, hpairs.2⟩, hpairs.1⟩
  exact List.perm_middle.mem_iff.mpr (List.mem_cons_of_mem _ hcs')

/-- Free clusters are in no chain. -/
theorem Chains.disjoint_free {chains : List (List Nat)} (H : vol.Chains clusters chains)
    (hfree : ∀ x ∈ new, x ∈ vol.freeClusters clusters) (hcs : cs ∈ chains) : new.Disjoint cs := by
  intro x hx hxcs
  obtain ⟨c, hchain⟩ := H.chain cs hcs
  exact hchain.fat_ne_zero hxcs (mem_freeClusters.mp (hfree x hx)).2

/-- The mark is behind the last of the linked clusters. -/
theorem link_getLast {next : Nat → Nat} {e t : Nat} (hnd : (t :: new).Nodup) :
    link next e t new ((t :: new).getLast (List.cons_ne_nil _ _)) = e := by
  induction new generalizing t next with
  | nil => exact Function.update_self ..
  | cons a new ih => exact ih (List.nodup_cons.mp hnd).2

/-- From any cluster of a chain on, `ExtendCluster` appends `n` free clusters to the chain. -/
theorem extendCluster_extends (hv : vol.WellFormed clusters)
    (H : vol.Chains clusters (before ++ cs :: after)) (hc : c ∈ cs) (hn : n ≤ (vol.freeClusters clusters).card) :
    ∃ new last vol', Extends vol clusters c n before cs after new last vol' := by
  obtain ⟨head, hchain⟩ := H.chain cs (by simp)
  obtain ⟨pre, t, rfl⟩ : ∃ pre t, cs = pre ++ [t] :=
    ⟨_, _, (List.dropLast_append_getLast hchain.chain.ne_nil).symm⟩
  obtain ⟨new, hlen, hsub, hext, hchain', -, -⟩ := extendCluster_spec hv hchain hc hn
  have hfree : ∀ x ∈ new, x ∈ vol.freeClusters clusters := fun x hx => hsub (List.mem_toFinset.mpr hx)
  have happend : pre ++ t :: new = pre ++ [t] ++ new := by simp
  have hnodup : (t :: new).Nodup := (List.nodup_append.mp hchain'.chain.nodup).2.1
  obtain ⟨hothers, hapart⟩ := H.others
  refine ⟨new, _, _, hext, hlen, (List.nodup_cons.mp hnodup).2, hfree, ?_, link_getLast hnodup,
    fun x hx hlast => ?_, ?_⟩
  · rw [← happend, List.getLast?_append, List.getLast?_eq_some_getLast (List.cons_ne_nil _ _)]
    rfl
  · refine link_of_notMem (fun hxt => hlast ?_) hx
    rw [hxt, List.getLast?_concat]
  · rw [happend] at hchain'
    refine hothers.insert hchain' (fun cs' hcs' => ?_) fun x hx => ?_
    · rw [List.disjoint_append_left]
      exact ⟨hapart cs' hcs', hothers.disjoint_free hfree hcs'⟩
    · rw [List.mem_append, not_or] at hx
      exact link_of_notMem (fun hxt => hx.1 (by simp [hxt])) hx.2

/-- `AllocateClusterChain` makes a chain of `max n 1` free clusters. -/
theorem allocateClusterChain_allocates {chains : List (List Nat)} (hv : vol.WellFormed clusters)
    (H : vol.Chains clusters chains) (hn : max n 1 ≤ (vol.freeClusters clusters).card) :
    ∃ new first vol', Allocates vol clusters n chains new first vol' := by
  obtain ⟨first, rest, fat', hlen, hfree, hfat, halloc, hchain, -⟩ := allocateClusterChain_spec hv hn
  refine ⟨first :: rest, first, _, halloc, hlen, hfree, rfl, hfat, ?_⟩
  have hothers : vol.Chains clusters ([] ++ chains) := H
  exact hothers.insert hchain (fun cs hcs => H.disjoint_free hfree hcs) hfat

/-- With enough free clusters the chains grow by free clusters only, and stay apart. -/
theorem chains_grow (hv : vol.WellFormed clusters) (n : Nat) :
    (∀ before cs after, vol.Chains clusters (before ++ cs :: after) → ∀ c ∈ cs,
      n ≤ (vol.freeClusters clusters).card →
        ∃ new last vol', Extends vol clusters c n before cs after new last vol') ∧
    ∀ chains, vol.Chains clusters chains → max n 1 ≤ (vol.freeClusters clusters).card →
      ∃ new first vol', Allocates vol clusters n chains new first vol' :=
  ⟨fun _ _ _ H _ hc hn => extendCluster_extends hv H hc hn,
    fun _ H hn => allocateClusterChain_allocates hv H hn⟩

/-- Three clusters behind the chain of the root directory. -/
theorem chains_grow_emptyVolume :
    ∃ new last vol', Extends FileDescriptor.emptyVolume 126 2 3 [] [2] [] new last vol' := by
  refine (chains_grow FileDescriptor.emptyVolume_wellFormed 3).1 [] [2] [] ⟨fun cs hcs => ?_, ?_⟩ 2
    List.mem_cons_self (by decide +kernel)
  · rw [List.nil_append, List.mem_singleton] at hcs
    subst hcs
    exact ⟨2, .last (by decide), by decide⟩
  · exact List.pairwise_singleton _ _

/-- Without a free cluster `AllocateClusterChain(0)` takes one that does not exist. -/
theorem not_allocates_fullVolume :
    ¬∀ (vol : Volume) (clusters n : Nat) (chains : List (List Nat)), vol.WellFormed clusters →
      vol.Chains clusters chains → n ≤ (vol.freeClusters clusters).card →
        ∃ new first vol', Allocates vol clusters n chains new first vol' := by
  intro h
  obtain ⟨new, first, vol', H⟩ := h fullVolume 3 0 [] fullVolume_wellFormed
    ⟨fun cs hcs => absurd hcs List.not_mem_nil, .nil⟩ (Nat.zero_le _)
  have hmem := H.free first (List.mem_of_mem_head? H.head)
  have hfull : fullVolume.freeClusters 3 = ∅ := by decide +kernel
  rw [hfull] at hmem
  exact absurd hmem (Finset.notMem_empty _)

end MikanOS.Fat.Volume
