import MikanOS.Fat.Insertion
import MikanOS.Fat.PathResolution

/-! # A new entry in a tree of directories

The directories of a tree have chains of their own, so that a new entry in one of them changes only what is
found there. The path of the new entry goes through the directory that `CreateFile` finds for it. -/

namespace MikanOS.Fat

namespace Volume

/-- A tree on a volume whose clusters are all words of the table. Its directories share no cluster, and only
the entries `.` and `..` lead to cluster 0. -/
structure DirectoryTree (vol : Volume) (clusters : Nat) extends Tree vol clusters where
  wf : vol.WellFormed clusters
  words : clusters + 2 = vol.fatWords
  entries : 0 < vol.entriesPerCluster
  separate : ∀ dir ∈ dirs, ∀ dir' ∈ dirs, dir ≠ dir' → (chain dir).Disjoint (chain dir')
  dots : ∀ dir ∈ dirs, ∀ r ∈ vol.visible (vol.slots (chain dir)), (vol.entry r).attr = kDirectory →
    (vol.entry r).firstByte ≠ kDeleted → (vol.entry r).firstCluster = 0 → (vol.entry r).firstByte = Path.dot

variable {vol vol' : Volume} {clusters dir parent fuel : Nat} {cs cs' : List Nat} {pre post : List EntryRef}
  {r x : EntryRef} {name elem path : Path} {lv : Nat × Path}

/-! ## The levels in the tree -/

/-- `FindFile` stays in the tree as long as no component is the name of a deleted entry. -/
theorem Tree.levels_mem (tree : vol.Tree clusters) (hv : vol.WellFormed clusters)
    (hlive : ∀ name ∈ components path, name.head? ≠ some kDeleted) (hdir : dir = 0 ∨ dir ∈ tree.dirs)
    (h : lv ∈ vol.levels fuel path dir) : lv.1 ∈ tree.dirs ∧ lv.2.head? ≠ some kDeleted := by
  induction fuel generalizing path dir with
  | zero => exact absurd h List.not_mem_nil
  | succ fuel ih =>
    have hmem := @Tree.searched_mem _ _ path _ tree hdir
    have helem : (element path).head? ≠ some kDeleted := by
      by_cases hne : element path = []
      · rw [hne]
        exact (Option.some_ne_none kDeleted).symm
      · exact hlive _ (List.mem_filter.mpr ⟨element_mem_splitOn path, decide_eq_true hne⟩)
    rw [levels, tree.search hv hmem] at h
    obtain rfl | h := List.mem_cons.mp h
    · exact ⟨hmem, helem⟩
    · generalize hfound : vol.lookup _ (element path) = found at h
      cases found with
      | none => exact absurd h List.not_mem_nil
      | some r =>
        change lv ∈ (if _ then _ else _) at h
        split at h
        · rename_i hgo
          refine ih (fun name hname => hlive name ?_) (tree.found hmem helem hfound hgo.1) h
          obtain ⟨hpiece, hne⟩ := List.mem_filter.mp hname
          exact List.mem_filter.mpr ⟨mem_splitOn_of_rest hgo.2 hpiece, hne⟩
        · exact absurd h List.not_mem_nil

/-- An entry that is found by a name of another entry than a deleted one is in use. -/
theorem used_of_lookup {ss : List EntryRef} (hname : name.head? ≠ some kDeleted)
    (h : vol.lookup ss name = some x) : ¬vol.Unused x := by
  rintro (hzero | hdeleted)
  · exact ne_zero_of_mem_visible (mem_of_lookup h) hzero
  · exact hname ((deleted_iff (nameIsEqual_of_lookup h)).mp hdeleted)

/-- A directory that is found by its name leads to a directory. -/
theorem DirectoryTree.found_mem (tree : vol.DirectoryTree clusters) (h : dir ∈ tree.dirs)
    (hname : name.head? ≠ some kDeleted) (hfound : vol.lookup (vol.slots (tree.chain dir)) name = some r)
    (hattr : (vol.entry r).attr = kDirectory) : (vol.entry r).firstCluster ∈ tree.dirs := by
  refine (tree.found h hname hfound hattr).resolve_left fun hzero => ?_
  have hequal := nameIsEqual_of_lookup hfound
  have hdot := tree.dots dir h r (mem_of_lookup hfound) hattr (mt (deleted_iff hequal).mp hname) hzero
  rw [firstByte_of_nameIsEqual hequal, name83_first] at hdot
  cases name with
  | nil => exact absurd hdot (by decide)
  | cons ch name =>
    change (if ch = Path.dot then _ else _) = _ at hdot
    split at hdot
    · exact absurd hdot (by decide)
    · rename_i hne
      exact hne (eq_of_toupper hdot (by decide))

/-! ## Searches after the insertion -/

namespace Inserts

variable (tree : vol.DirectoryTree clusters) (hparent : parent ∈ tree.dirs)
  (H : Inserts vol vol' clusters parent (tree.chain parent) cs' pre post r name)
include H

theorem search (elem : Path) : vol'.searchDirectory elem (vol'.fatWords + 1) parent =
    some (vol'.lookup (vol'.slots cs') elem) := by
  have hle := H.chain.length_le
  have himage := H.wf.in_image
  exact searchDirectory_spec H.wf H.chain (by omega)

theorem not_used_ne (hx : x ∈ vol.slots (tree.chain parent)) (hused : ¬vol.Unused x) : x ≠ r := by
  rintro rfl
  obtain ⟨-, hr⟩ | ⟨heq, -⟩ := H.before
  · exact hused hr
  · exact H.notMem_pre (heq ▸ hx)

include hparent

theorem search_other (hdir : dir ∈ tree.dirs) (hne : dir ≠ parent) (elem : Path) :
    vol'.searchDirectory elem (vol'.fatWords + 1) dir = vol.searchDirectory elem (vol.fatWords + 1) dir := by
  obtain ⟨hchain, hslots, -, hentry⟩ := H.others dir _ (tree.isChain dir hdir)
      (tree.separate dir hdir parent hparent hne)
  have hle := hchain.length_le
  have himage := H.wf.in_image
  rw [searchDirectory_spec H.wf hchain (by omega), tree.search tree.wf hdir, hslots, lookup_congr hentry]

/-- At a level whose element is not the new name the same is found, if it is not the entry that is taken. -/
theorem search_found (hzero : 0 ∉ name) (hdir : dir ∈ tree.dirs)
    (hnew : dir = parent → storedName name ≠ name83 elem 0 (.replicate 11 0x20) ∧ x ≠ r)
    (hfound : vol.searchDirectory elem (vol.fatWords + 1) dir = some (some x)) :
    vol'.searchDirectory elem (vol'.fatWords + 1) dir = some (some x) ∧ vol'.entry x = vol.entry x := by
  have hlookup := hfound
  rw [tree.search tree.wf hdir, Option.some_inj] at hlookup
  have hmem := mem_of_mem_visible (mem_of_lookup hlookup)
  by_cases hne : dir = parent
  · subst hne
    obtain ⟨hstored, hx⟩ := hnew rfl
    rw [H.search]
    exact ⟨congrArg some (H.lookup_found hzero hlookup hx hstored), H.kept x hmem hx⟩
  · obtain ⟨-, -, -, hentry⟩ := H.others dir _ (tree.isChain dir hdir)
      (tree.separate dir hdir parent hparent hne)
    exact ⟨(H.search_other tree hparent hdir hne elem).trans hfound, hentry x hmem⟩

/-- An entry that is not found by the name of a deleted one is not taken. -/
theorem search_level (hzero : 0 ∉ name) (hdir : dir ∈ tree.dirs) (helem : elem.head? ≠ some kDeleted)
    (hnew : dir = parent → storedName name ≠ name83 elem 0 (.replicate 11 0x20))
    (hfound : vol.searchDirectory elem (vol.fatWords + 1) dir = some (some x)) :
    vol'.searchDirectory elem (vol'.fatWords + 1) dir = some (some x) ∧ vol'.entry x = vol.entry x := by
  refine H.search_found tree hparent hzero hdir (fun hne => ⟨hnew hne, ?_⟩) hfound
  subst hne
  rw [tree.search tree.wf hdir, Option.some_inj] at hfound
  exact H.not_used_ne tree (mem_of_mem_visible (mem_of_lookup hfound)) (used_of_lookup helem hfound)

end Inserts

end Volume

end MikanOS.Fat
