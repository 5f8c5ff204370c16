import MikanOS.Fat.Lookup

/-! # Volumes with the same names in every directory

On such a volume `FindFile` finds all of the names wherever it is, and where an entry leads depends only on
the directory it is in. -/

namespace MikanOS.Fat

/-! ## Names of entries -/

theorem toupper_ne_zero {ch : UInt8} (h : ch ≠ 0) : toupper ch ≠ 0 := by
  rw [toupper]
  split
  · rename_i hlower
    intro hzero
    have hsub := UInt8.toNat_sub_of_le ch 0x20 (UInt8.le_trans (by decide) hlower.1)
    have hle := UInt8.le_iff_toNat_le.mp hlower.1
    rw [hzero] at hsub
    change 0x61 ≤ ch.toNat at hle
    change 0 = ch.toNat - 0x20 at hsub
    omega
  · exact h

/-- The name that `NameIsEqual` compares with has no zero. -/
theorem name83_ne_zero {name : Path} {i83 : Nat} {acc : Vector UInt8 11} (hname : 0 ∉ name)
    (hacc : ∀ x ∈ acc, x ≠ 0) : ∀ x ∈ name83 name i83 acc, x ≠ 0 := by
  induction name generalizing i83 acc with
  | nil => exact hacc
  | cons ch name ih =>
    obtain ⟨hch, hname⟩ := not_or.mp (mt List.mem_cons.mpr hname)
    rw [name83]
    split
    · split
      · exact ih hname hacc
      · refine ih hname ?_
        intro x hx
        obtain hx | rfl := Vector.mem_or_eq_of_mem_set hx
        · exact hacc x hx
        · exact toupper_ne_zero (Ne.symm hch)
    · exact hacc

/-! ## The shelves -/

namespace Volume

/-- Every cluster is a directory of its own with a directory entry for each of the names, which leads to
`lead c`. -/
def shelves (names : List Path) (clusters : Nat) (lead : Nat → Nat) : Volume where
  bytesPerCluster := 32 * names.length
  rootCluster := 2
  fatWords := clusters + 2
  fat := fun _ => kEndOfClusterchain
  data := fun _ _ => 0
  entry := fun r =>
    DirectoryEntry.setFirstCluster ⟨name83 (names.getD r.index []) 0 (.replicate 11 0x20), kDirectory, 0, 0,
    0⟩
      (lead r.cluster)

variable {names : List Path} {piece : Path} {clusters c : Nat} {lead : Nat → Nat} {ss : List EntryRef}
  {r : EntryRef}

theorem shelves_wellFormed (hne : names ≠ []) (hle : clusters + 2 ≤ 0x0ffffff8) :
    (shelves names clusters lead).WellFormed clusters where
  bytesPerCluster_pos := Nat.mul_pos (by decide) (List.length_pos_of_ne_nil hne)
  in_image := Nat.le_refl _
  not_end := hle

theorem shelves_chain (hc : 2 ≤ c ∧ c < clusters + 2) :
    (shelves names clusters lead).FileChain clusters c [c] where
  chain := .last (show IsEndOfClusterchain kEndOfClusterchain by decide)
  in_range := List.forall_mem_singleton.mpr hc

theorem shelves_firstCluster (h : lead r.cluster < 2 ^ 32) :
    ((shelves names clusters lead).entry r).firstCluster = lead r.cluster :=
  DirectoryEntry.firstCluster_setFirstCluster _ h

theorem shelves_slots : (shelves names clusters lead).slots [c] =
    (List.range names.length).map (EntryRef.mk c) := by
  have hentries : (shelves names clusters lead).entriesPerCluster = names.length :=
    Nat.mul_div_cancel_left _ (by decide)
  rw [slots, List.flatMap_singleton, hentries]

/-- No entry is an end mark. -/
theorem shelves_visible (hzero : ∀ name ∈ names, 0 ∉ name) :
    (shelves names clusters lead).visible ss = ss := by
  apply List.takeWhile_eq_self_iff.mpr
  intro r _
  have hname : 0 ∉ names.getD r.index [] := by
    rw [List.getD_eq_getElem?_getD]
    cases hr : names[r.index]? with
    | none => exact List.not_mem_nil
    | some name => exact hzero name (List.mem_of_getElem? hr)
  apply decide_eq_true
  refine name83_ne_zero hname ?_ _ (Vector.getElem_mem _)
  intro x hx
  rw [(Vector.mem_replicate.mp hx).2]
  decide

/-- Each of the names is found in each of the directories. -/
theorem shelves_lookup (hzero : ∀ name ∈ names, 0 ∉ name) (hmem : piece ∈ names) :
    ∃ r, r.cluster = c ∧
      (shelves names clusters lead).lookup ((shelves names clusters lead).slots [c]) piece = some r := by
  obtain ⟨i, hi, hget⟩ := List.mem_iff_getElem.mp hmem
  have hsome : ((shelves names clusters lead).lookup
      ((shelves names clusters lead).slots [c]) piece).isSome := by
    rw [lookup, shelves_visible hzero, List.find?_isSome, shelves_slots]
    refine ⟨⟨c, i⟩, List.mem_map.mpr ⟨i, List.mem_range.mpr hi, rfl⟩, decide_eq_true ?_⟩
    change name83 (names.getD i []) 0 _ = _
    rw [List.getD_eq_getElem _ _ hi, hget]
  obtain ⟨r, hr⟩ := Option.isSome_iff_exists.mp hsome
  have hcluster := cluster_mem_of_mem_visible (mem_of_lookup hr)
  exact ⟨r, List.mem_singleton.mp hcluster, hr⟩

/-- Nothing else is found. -/
theorem shelves_lookup_none (h : ∀ name ∈ names,
    name83 name 0 (.replicate 11 0x20) ≠ name83 piece 0 (.replicate 11 0x20)) :
    (shelves names clusters lead).lookup ((shelves names clusters lead).slots [c]) piece = none := by
  apply List.find?_eq_none.mpr
  intro r hr hequal
  have hmem := mem_of_mem_visible hr
  rw [shelves_slots] at hmem
  obtain ⟨i, hi, rfl⟩ := List.mem_map.mp hmem
  have hi := List.mem_range.mp hi
  refine h _ (List.getElem_mem hi) ?_
  rw [← List.getD_eq_getElem _ [] hi]
  exact of_decide_eq_true hequal

end Volume

end MikanOS.Fat
