import MikanOS.Library.Chain
import MikanOS.Fat.Volume

/-! # Allocation of clusters

On a volume with enough free clusters, `ExtendCluster` links free clusters behind the end of a chain
and `AllocateClusterChain` makes a new chain of them; no other entry of the table changes. -/

namespace MikanOS.Fat

open LinkedChain

namespace Volume

/-- A volume with `clusters` data clusters, all within the table of the image. -/
structure WellFormed (vol : Volume) (clusters : Nat) : Prop where
  bytesPerCluster_pos : 0 < vol.bytesPerCluster
  in_image : clusters + 2 ≤ vol.fatWords
  not_end : clusters + 2 ≤ 0x0ffffff8

/-- The free clusters of the volume. -/
def freeClusters (vol : Volume) (clusters : Nat) : Finset Nat :=
  (Finset.Ico 2 (clusters + 2)).filter (vol.fat · = 0)

/-- The chain of clusters from `c` on, all of them data clusters. -/
structure FileChain (vol : Volume) (clusters c : Nat) (cs : List Nat) : Prop where
  chain : Chain vol.fat IsEndOfClusterchain c cs
  in_range : ∀ x ∈ cs, 2 ≤ x ∧ x < clusters + 2

variable {vol : Volume} {clusters c t n : Nat} {cs pre : List Nat}

theorem mem_freeClusters : c ∈ vol.freeClusters clusters ↔
    (2 ≤ c ∧ c < clusters + 2) ∧ vol.fat c = 0 := by
  simp [freeClusters]

theorem setFat_of_lt {value : Nat} (h : value < 2 ^ 32) (cluster : Nat) :
    vol.setFat cluster value = { vol with fat := Function.update vol.fat cluster value } := by
  rw [setFat, Nat.mod_eq_of_lt h]

theorem WellFormed.congr {vol' : Volume} (hv : vol.WellFormed clusters)
    (hb : vol'.bytesPerCluster = vol.bytesPerCluster) (hw : vol'.fatWords = vol.fatWords) :
    vol'.WellFormed clusters :=
  ⟨hb ▸ hv.bytesPerCluster_pos, hw ▸ hv.in_image, hv.not_end⟩

theorem WellFormed.setData (hv : vol.WellFormed clusters) (cluster : Nat) (bytes : Nat → UInt8) :
    (vol.setData cluster bytes).WellFormed clusters :=
  hv.congr rfl rfl

namespace FileChain

theorem length_le (h : vol.FileChain clusters c cs) : cs.length ≤ clusters := by
  have hsub : cs.toFinset ⊆ Finset.Ico 2 (clusters + 2) := by
    intro x hx
    exact Finset.mem_Ico.mpr (h.in_range x (List.mem_toFinset.mp hx))
  have hcard := Finset.card_le_card hsub
  rw [List.toFinset_card_of_nodup h.chain.nodup, Nat.card_Ico] at hcard
  exact hcard

/-- No cluster of a chain is free. -/
theorem fat_ne_zero (h : vol.FileChain clusters c cs) (hx : t ∈ cs) : vol.fat t ≠ 0 := by
  obtain ⟨suffix, hs, hchain⟩ := h.chain.of_mem hx
  cases hchain with
  | last hend =>
    intro h0
    rw [h0] at hend
    exact absurd hend (by decide)
  | link hlink hnext =>
    have hmem := List.mem_of_mem_head? hnext.head?_eq
    have := (h.in_range _ (hs.subset (List.mem_cons_of_mem _ hmem))).1
    omega

theorem congr {vol' : Volume} (h : vol.FileChain clusters c cs) (heq : ∀ x ∈ cs, vol'.fat x = vol.fat x) :
    vol'.FileChain clusters c cs :=
  ⟨h.chain.congr heq, h.in_range⟩

end FileChain

/-! ## `ExtendCluster` -/

theorem endOfChain_spec {fuel : Nat} (h : Chain vol.fat IsEndOfClusterchain c cs)
    (hfuel : cs.length ≤ fuel) : vol.endOfChain fuel c = some (cs.getLast h.ne_nil) := by
  induction h generalizing fuel with
  | last hend =>
    cases fuel with
    | zero => exact absurd hfuel (by simp)
    | succ fuel => simp [endOfChain, hend]
  | link hlink h ih =>
    cases fuel with
    | zero => exact absurd hfuel (by simp)
    | succ fuel =>
      have hlast := ih (by simpa using hfuel)
      rw [endOfChain, if_neg hlink, hlast, List.getLast_cons h.ne_nil]

/-- Free candidates do not become fewer or more by a link to a candidate from a cell that is no
free candidate itself. -/
theorem free_setFat_iff {current candidate a : Nat} (hcand : candidate ≠ 0)
    (hlim : candidate < 2 ^ 32) (hcur : vol.fat current ≠ 0 ∨ current < a) :
    (vol.setFat current candidate).fat a = 0 ↔ vol.fat a = 0 := by
  rw [setFat_of_lt hlim]
  by_cases ha : a = current
  · subst ha
    have h0 : vol.fat a ≠ 0 := hcur.resolve_right (Nat.lt_irrefl a)
    simp [hcand, h0]
  · simp [ha]

/-- The loop takes the first `n` free candidates; with the end mark set they are linked behind
`current`. -/
theorem extendLoop_spec {fuel candidate current bound : Nat} (hcand : 2 ≤ candidate)
    (hbound : bound ≤ candidate + fuel) (hlim : bound ≤ 2 ^ 32)
    (hcur : vol.fat current ≠ 0 ∨ current < candidate)
    (hn : n ≤ ((Finset.Ico candidate bound).filter (vol.fat · = 0)).card) :
    ∃ new vol', new.length = n ∧ new.Nodup ∧
      (∀ a ∈ new, candidate ≤ a ∧ a < bound ∧ vol.fat a = 0) ∧
      extendLoop vol fuel candidate current n =
        some (vol', (current :: new).getLast (List.cons_ne_nil _ _)) ∧
      vol'.setFat ((current :: new).getLast (List.cons_ne_nil _ _)) kEndOfClusterchain =
        { vol with fat := link vol.fat kEndOfClusterchain current new } := by
  induction fuel generalizing vol candidate current n with
  | zero =>
    obtain rfl : n = 0 := by
      rw [Finset.Ico_eq_empty (by omega)] at hn
      simpa using hn
    exact ⟨[], vol, rfl, List.nodup_nil, fun a ha => absurd ha List.not_mem_nil, rfl, rfl⟩
  | succ fuel ih =>
    cases n with
    | zero => exact ⟨[], vol, rfl, List.nodup_nil, fun a ha => absurd ha List.not_mem_nil, rfl, rfl⟩
    | succ n =>
      have hlt : candidate < bound := by
        by_contra hge
        rw [Finset.Ico_eq_empty hge] at hn
        exact absurd hn (by simp)
      rw [← Finset.insert_Ico_add_one_left_eq_Ico hlt, Finset.filter_insert] at hn
      by_cases hfree : vol.fat candidate = 0
      · rw [if_pos hfree, Finset.card_insert_of_notMem (by simp)] at hn
        have hiff : ∀ a, candidate + 1 ≤ a →
            ((vol.setFat current candidate).fat a = 0 ↔ vol.fat a = 0) := fun a ha =>
          free_setFat_iff (by omega) (by omega) (hcur.imp_right (by omega))
        have hn' : n ≤ ((Finset.Ico (candidate + 1) bound).filter
            ((vol.setFat current candidate).fat · = 0)).card := by
          rw [Finset.filter_congr fun a ha => hiff a (Finset.mem_Ico.mp ha).1]
          omega
        obtain ⟨new, vol', hlen, hnd, hnew, hloop, hset⟩ := ih (by omega) (by omega)
          (.inr (Nat.lt_succ_self candidate)) hn'
        refine ⟨candidate :: new, vol', by simp [hlen], ?_, ?_, ?_, ?_⟩
        · refine List.nodup_cons.mpr ⟨fun hmem => ?_, hnd⟩
          exact absurd (hnew _ hmem).1 (Nat.not_succ_le_self _)
        · intro a ha
          rcases List.mem_cons.mp ha with rfl | ha
          · exact ⟨Nat.le_refl _, hlt, hfree⟩
          · obtain ⟨hle, hb, h0⟩ := hnew a ha
            exact ⟨by omega, hb, (hiff a hle).mp h0⟩
        · rw [extendLoop, if_neg (not_not.mpr hfree), hloop, List.getLast_cons (List.cons_ne_nil _ _)]
        · rw [List.getLast_cons (List.cons_ne_nil _ _), hset, setFat_of_lt (by omega)]
          rfl
      · rw [if_neg hfree] at hn
        obtain ⟨new, vol', hlen, hnd, hnew, hloop, hset⟩ := ih (by omega) (by omega)
          (hcur.imp_right (by omega)) hn
        refine ⟨new, vol', hlen, hnd, fun a ha => ?_, ?_, hset⟩
        · obtain ⟨hle, hb, h0⟩ := hnew a ha
          exact ⟨by omega, hb, h0⟩
        · rw [extendLoop, if_pos hfree, hloop]

/-- `ExtendCluster` from a cluster `c` of a chain that ends in `t`. -/
theorem extendCluster_spec (hv : vol.WellFormed clusters) {head : Nat}
    (hc : vol.FileChain clusters head (pre ++ [t])) (hmem : c ∈ pre ++ [t])
    (hn : n ≤ (vol.freeClusters clusters).card) :
    ∃ new, new.length = n ∧ new.toFinset ⊆ vol.freeClusters clusters ∧
      let vol' := { vol with fat := link vol.fat kEndOfClusterchain t new }
      vol.extendCluster c n =
        some ((t :: new).getLast (List.cons_ne_nil _ _), vol') ∧
      vol'.FileChain clusters head (pre ++ t :: new) ∧
      vol'.freeClusters clusters = vol.freeClusters clusters \ new.toFinset ∧
      (vol'.freeClusters clusters).card + n = (vol.freeClusters clusters).card := by
  obtain ⟨suffix, hs, hchain⟩ := hc.chain.of_mem hmem
  have hend : vol.endOfChain vol.fatWords c = some t := by
    have hle := hs.length_le
    have hcl := hc.length_le
    have hin := hv.in_image
    rw [endOfChain_spec hchain (by omega)]
    have hlast : suffix.getLast hchain.ne_nil = (pre ++ [t]).getLast (by simp) :=
      hs.getLast hchain.ne_nil
    rw [hlast, List.getLast_append_of_right_ne_nil _ _ (List.cons_ne_nil _ _)]
    rfl
  have ht0 : vol.fat t ≠ 0 := hc.fat_ne_zero (by simp)
  have hin := hv.in_image
  have hnot := hv.not_end
  obtain ⟨new, vol', hlen, hnd, hnew, hloop, hset⟩ :=
    extendLoop_spec (Nat.le_refl 2) (by omega : clusters + 2 ≤ 2 + (vol.fatWords - 2)) (by omega)
      (.inl ht0) hn
  have hsub : new.toFinset ⊆ vol.freeClusters clusters := by
    intro a ha
    obtain ⟨h2, hlt, h0⟩ := hnew a (List.mem_toFinset.mp ha)
    exact mem_freeClusters.mpr ⟨⟨h2, hlt⟩, h0⟩
  have htnew : t ∉ new := fun h => ht0 (hnew t h).2.2
  have hnotin : ∀ x ∈ pre ++ [t], x ∉ new := fun x hx h => hc.fat_ne_zero hx (hnew x h).2.2
  have hpre : ∀ x ∈ pre, x ≠ t := by
    intro x hx hxt
    have := List.disjoint_of_nodup_append hc.chain.nodup hx
    exact this (by simp [hxt])
  have htail : Chain (link vol.fat kEndOfClusterchain t new) IsEndOfClusterchain t (t :: new) := by
    refine chain_link (by decide) (fun a ha => ?_) (List.nodup_cons.mpr ⟨htnew, hnd⟩)
    have := (hnew a ha).2.1
    exact Nat.not_le.mpr (by omega)
  have htail' : ({ vol with fat := link vol.fat kEndOfClusterchain t new } : Volume).FileChain
      clusters t (t :: new) := by
    refine ⟨htail, fun x hx => ?_⟩
    rcases List.mem_cons.mp hx with rfl | hx
    · exact hc.in_range x (by simp)
    · exact ⟨(hnew x hx).1, (hnew x hx).2.1⟩
  have hfree : ({ vol with fat := link vol.fat kEndOfClusterchain t new } : Volume).freeClusters
      clusters = vol.freeClusters clusters \ new.toFinset := by
    ext a
    rw [Finset.mem_sdiff, mem_freeClusters, mem_freeClusters, List.mem_toFinset]
    by_cases ha : a ∈ t :: new
    · -- neither the old end nor a taken cluster is free afterwards
      have hne : link vol.fat kEndOfClusterchain t new a ≠ 0 := htail'.fat_ne_zero ha
      rcases List.mem_cons.mp ha with rfl | hmem
      · exact ⟨fun h => absurd h.2 hne, fun h => absurd h.1.2 ht0⟩
      · exact ⟨fun h => absurd h.2 hne, fun h => absurd hmem h.2⟩
    · obtain ⟨hat, hmem⟩ := not_or.mp (List.mem_cons.not.mp ha)
      simp only [link_of_notMem hat hmem]
      exact ⟨fun h => ⟨h, hmem⟩, fun h => h.1⟩
  refine ⟨new, hlen, hsub, ?_, ⟨?_, fun x hx => ?_⟩, hfree, ?_⟩
  · simp only [extendCluster, hend, hloop, Option.bind_eq_bind, Option.bind_some]
    exact congrArg some (Prod.ext rfl hset)
  · exact hc.chain.extend (fun y hy => link_of_notMem (hpre y hy) (hnotin y (by simp [hy]))) htail
  · rcases List.mem_append.mp hx with hx | hx
    · exact hc.in_range x (by simp [hx])
    · exact htail'.in_range x hx
  · rw [hfree, Finset.card_sdiff_of_subset hsub, List.toFinset_card_of_nodup hnd, hlen]
    omega

/-! ## `AllocateClusterChain` -/

theorem findFree_spec {fuel candidate bound : Nat} (hbound : bound ≤ candidate + fuel)
    (h : ∃ a, (candidate ≤ a ∧ a < bound) ∧ vol.fat a = 0) :
    ∃ a, (candidate ≤ a ∧ a < bound) ∧ vol.fat a = 0 ∧ vol.findFree fuel candidate = some a := by
  induction fuel generalizing candidate with
  | zero =>
    obtain ⟨a, ⟨hle, hlt⟩, -⟩ := h
    omega
  | succ fuel ih =>
    obtain ⟨a, ⟨hle, hlt⟩, h0⟩ := h
    by_cases hfree : vol.fat candidate = 0
    · exact ⟨candidate, ⟨Nat.le_refl _, by omega⟩, hfree, by rw [findFree, if_pos hfree]⟩
    · have hne : candidate ≠ a := fun heq => hfree (heq ▸ h0)
      have hbound' : bound ≤ candidate + 1 + fuel := by omega
      obtain ⟨b, hb, hb0, hfind⟩ := ih hbound' ⟨a, ⟨by omega, hlt⟩, h0⟩
      exact ⟨b, ⟨by omega, hb.2⟩, hb0, by rw [findFree, if_neg hfree, hfind]⟩

/-- A free cluster is made a chain of its own. -/
private theorem update_end_spec (hc : c ∈ vol.freeClusters clusters) :
    let vol' := { vol with fat := Function.update vol.fat c kEndOfClusterchain }
    vol'.FileChain clusters c [c] ∧
      vol'.freeClusters clusters = vol.freeClusters clusters \ {c} := by
  obtain ⟨hrange, h0⟩ := mem_freeClusters.mp hc
  refine ⟨⟨.last ?_, fun x hx => ?_⟩, ?_⟩
  · have hend : IsEndOfClusterchain kEndOfClusterchain := by decide
    simpa using hend
  · exact List.mem_singleton.mp hx ▸ hrange
  · ext a
    rw [Finset.mem_sdiff, mem_freeClusters, mem_freeClusters, Finset.mem_singleton]
    by_cases ha : a = c
    · subst ha
      simp [kEndOfClusterchain]
    · simp [ha]

/-- `AllocateClusterChain` makes a chain of `n` free clusters, and of one for `n = 0`. -/
theorem allocateClusterChain_spec (hv : vol.WellFormed clusters)
    (hn : max n 1 ≤ (vol.freeClusters clusters).card) :
    ∃ first rest fat', rest.length + 1 = max n 1 ∧
      (∀ x ∈ first :: rest, x ∈ vol.freeClusters clusters) ∧
      (∀ x, x ∉ first :: rest → fat' x = vol.fat x) ∧
      let vol' := { vol with fat := fat' }
      vol.allocateClusterChain n = some (first, vol') ∧
      vol'.FileChain clusters first (first :: rest) ∧
      (vol'.freeClusters clusters).card + max n 1 = (vol.freeClusters clusters).card := by
  have hpos : 0 < (vol.freeClusters clusters).card := by omega
  obtain ⟨x, hx⟩ := Finset.card_pos.mp hpos
  obtain ⟨hxr, hx0⟩ := mem_freeClusters.mp hx
  have hin := hv.in_image
  obtain ⟨first, hrange, h0, hfind⟩ :=
    findFree_spec (by omega : clusters + 2 ≤ 2 + (vol.fatWords - 2)) ⟨x, hxr, hx0⟩
  have hmem : first ∈ vol.freeClusters clusters := mem_freeClusters.mpr ⟨hrange, h0⟩
  obtain ⟨hchain, hfree⟩ := update_end_spec hmem
  have hv₁ : ({ vol with fat := Function.update vol.fat first kEndOfClusterchain } :
      Volume).WellFormed clusters := hv.congr rfl rfl
  have hcard := Finset.card_sdiff_of_subset (Finset.singleton_subset_iff.mpr hmem)
  rw [← hfree, Finset.card_singleton] at hcard
  have hset := vol.setFat_of_lt (by decide : kEndOfClusterchain < 2 ^ 32) first
  by_cases h1 : n > 1
  · obtain ⟨new, hlen, hsub, hext, hchain', -, hcard'⟩ :=
      extendCluster_spec (n := n - 1) hv₁ (show FileChain _ clusters first ([] ++ [first]) from hchain)
        List.mem_cons_self (by omega)
    refine ⟨first, new, _, by omega, fun y hy => ?_, fun y hy => ?_, ?_, hchain', ?_⟩
    · rcases List.mem_cons.mp hy with rfl | hy
      · exact hmem
      · have hy := hsub (List.mem_toFinset.mpr hy)
        simp only [hfree] at hy
        exact (Finset.mem_sdiff.mp hy).1
    · obtain ⟨hyf, hyn⟩ := not_or.mp (List.mem_cons.not.mp hy)
      exact (link_of_notMem hyf hyn).trans (Function.update_of_ne hyf _ _)
    · simp only [allocateClusterChain, hfind, Option.bind_eq_bind, Option.bind_some, if_pos h1,
        hset, hext]
      rfl
    · rw [show max n 1 = n - 1 + 1 by omega, ← Nat.add_assoc]
      exact (congrArg (· + 1) hcard').trans (by omega)
  · refine ⟨first, [], _, by simp; omega, fun y hy => ?_, fun y hy => ?_, ?_, hchain, by omega⟩
    · exact List.mem_singleton.mp hy ▸ hmem
    · exact Function.update_of_ne (fun h => hy (List.mem_singleton.mpr h)) _ _
    · simp only [allocateClusterChain, hfind, Option.bind_eq_bind, Option.bind_some, if_neg h1,
        hset]
      rfl

end Volume

end MikanOS.Fat
