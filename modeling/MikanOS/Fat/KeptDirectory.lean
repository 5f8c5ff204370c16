import MikanOS.Fat.CreatedFile

/-! # What a new entry leaves as it was

The entries in use, the paths that lead to something and those that lead to nothing, and the end of the
directory. Only a deleted entry that `FindFile` still finds is lost when `AllocateEntry` takes it. -/

namespace MikanOS.Fat

namespace Volume

/-- All entries from the first end mark on are zero. -/
def Terminated (vol : Volume) (ss : List EntryRef) : Prop :=
  ∀ x ∈ ss.dropWhile fun r => (vol.entry r).firstByte ≠ 0, (vol.entry x).firstByte = 0

instance (vol : Volume) (ss : List EntryRef) : Decidable (vol.Terminated ss) :=
  inferInstanceAs (Decidable (∀ x ∈ ss.dropWhile _, _))

/-- The first unused entry of the directory is one that `FindFile` finds by some name. -/
def TakesFound (vol : Volume) (ss : List EntryRef) : Prop :=
  ∃ elem r, 0 ∉ elem ∧ Path.slash ∉ elem ∧ ss.find? (vol.Unused ·) = some r ∧ vol.lookup ss elem = some r

/-- A path whose levels are directories of the tree. -/
def StaysIn (vol : Volume) (dirs : Set Nat) (fuel : Nat) (path : Path) (dir : Nat) : Prop :=
  ∀ lv ∈ vol.levels fuel path dir, lv.1 ∈ dirs

/-- The directory keeps what it had when an entry with the name is created in it. -/
structure KeepsDirectory {vol : Volume} {clusters : Nat} (tree : vol.DirectoryTree clusters) (vol' : Volume)
    (parent : Nat) (name : Path) : Prop where
  live : ∀ dir ∈ tree.dirs, ∀ x ∈ vol.visible (vol.slots (tree.chain dir)),
    (vol.entry x).firstByte ≠ kDeleted → vol'.entry x = vol.entry x
  resolved : ∀ fuel path dir, 0 ∉ path → vol.StaysIn tree.dirs fuel path dir → ∀ x after,
    vol.findFile fuel path dir = some (some x, after) → vol'.findFile fuel path dir = some (some x, after)
  missing : ∀ fuel path dir, 0 ∉ path → vol.StaysIn tree.dirs fuel path dir →
    (∀ elem, (parent, elem) ∈ vol.levels fuel path dir →
    storedName name ≠ name83 elem 0 (.replicate 11 0x20)) →
      ∀ after, vol.findFile fuel path dir = some (none, after) →
      vol'.findFile fuel path dir = some (none, after)
  terminated : ∃ cs, vol'.FileChain clusters parent cs ∧ vol'.Terminated (vol'.slots cs)

variable {vol vol' : Volume} {clusters dir parent fuel : Nat} {cs cs' : List Nat} {pre post ss : List EntryRef}
  {r x : EntryRef} {name elem path piece : Path} {lv : Nat × Path} {after : Bool}

/-! ## The end of the directory -/

theorem terminated_append (h : ∀ x ∈ pre, (vol.entry x).firstByte ≠ 0) :
    vol.Terminated (pre ++ ss) ↔ vol.Terminated ss := by
  rw [Terminated, List.dropWhile_append_of_pos fun x hx => decide_eq_true (h x hx), ← Terminated]

theorem terminated_cons (h : (vol.entry r).firstByte ≠ 0) : vol.Terminated (r :: ss) ↔ vol.Terminated ss :=
  terminated_append (List.forall_mem_singleton.mpr h)

theorem terminated_of_zero (h : ∀ x ∈ ss, (vol.entry x).firstByte = 0) : vol.Terminated ss :=
  fun x hx => h x ((List.dropWhile_sublist _).subset hx)

theorem zero_of_terminated (hr : (vol.entry r).firstByte = 0) (h : vol.Terminated (r :: ss)) :
    ∀ x ∈ ss, (vol.entry x).firstByte = 0 := by
  intro x hx
  rw [Terminated, List.dropWhile_cons_of_neg (by simp [hr])] at h
  exact h x (List.mem_cons_of_mem _ hx)

theorem terminated_congr (hentry : ∀ x ∈ ss, vol'.entry x = vol.entry x) (h : vol.Terminated ss) :
    vol'.Terminated ss := by
  have hsame : (ss.dropWhile fun r => (vol'.entry r).firstByte ≠ 0) =
      ss.dropWhile fun r => (vol.entry r).firstByte ≠ 0 := by
    clear h
    induction ss with
    | nil => rfl
    | cons a ss ih =>
      obtain ⟨ha, hss⟩ := List.forall_mem_cons.mp hentry
      rw [List.dropWhile_cons, List.dropWhile_cons, ha, ih hss]
  intro x hx
  rw [hsame] at hx
  rw [hentry x ((List.dropWhile_sublist _).subset hx)]
  exact h x hx

section Insertion

variable (H : Inserts vol vol' clusters parent cs cs' pre post r name) (hzero : 0 ∉ name)
  (hterm : vol.Terminated (vol.slots cs))
include H hterm

/-- Behind the first unused entry there is nothing that was not found before. -/
theorem lookup_behind_none (h : vol.lookup (vol.slots cs) elem = none) :
    vol.lookup (vol.behind (vol.slots cs)) elem = none := by
  have hpre : ∀ x ∈ pre, (vol.entry x).firstByte ≠ 0 := fun x hx hzero => H.used x hx (Or.inl hzero)
  obtain ⟨heq, hr⟩ | ⟨heq, -⟩ := H.before
  · rw [heq, behind_of_unused H.used hr]
    rw [heq, terminated_append hpre] at hterm
    by_cases hend : (vol.entry r).firstByte = 0
    · rw [lookup, visible_of_zero (zero_of_terminated hend hterm)]
      rfl
    · rw [heq, lookup_append_used H.used, lookup_cons, if_neg hend] at h
      have hrest := (Option.or_eq_none_iff.mp h).2
      split at hrest
      · cases hrest
      · exact hrest
  · rw [heq, behind_of_used H.used]
    rfl

include hzero in
theorem terminated_after : vol'.Terminated (vol'.slots cs') := by
  have hpre : ∀ x ∈ pre, (vol.entry x).firstByte ≠ 0 := fun x hx hzero => H.used x hx (Or.inl hzero)
  have hpre' : ∀ x ∈ pre, (vol'.entry x).firstByte ≠ 0 := fun x hx => H.kept_pre hx ▸ hpre x hx
  rw [H.slots, terminated_append hpre', terminated_cons (H.firstByte_ne_zero hzero)]
  obtain ⟨heq, hr⟩ | ⟨-, hpost⟩ := H.before
  · rw [heq, terminated_append hpre] at hterm
    have hkept : ∀ x ∈ post, vol'.entry x = vol.entry x := fun x hx => (H.kept_post heq hx).2
    apply terminated_congr hkept
    by_cases hend : (vol.entry r).firstByte = 0
    · exact terminated_of_zero (zero_of_terminated hend hterm)
    · exact (terminated_cons hend).mp hterm
  · exact terminated_of_zero hpost

end Insertion

/-! ## The entry that is taken -/

theorem takesFound_iff (H : Inserts vol vol' clusters parent cs cs' pre post r name) :
    vol.TakesFound (vol.slots cs) ↔ ∃ elem, 0 ∉ elem ∧ Path.slash ∉ elem ∧
    vol.lookup (vol.slots cs) elem = some r := by
  have hused : ∀ x ∈ pre, (!decide (vol.Unused x)) = true := fun x hx => by simpa using H.used x hx
  constructor
  · rintro ⟨elem, s, hzero, hslash, hs, hfound⟩
    obtain ⟨heq, hr⟩ | ⟨heq, -⟩ := H.before
    · have hfirst : (vol.slots cs).find? (vol.Unused ·) = some r :=
        List.find?_eq_some_iff_append.mpr ⟨decide_eq_true hr, pre, post, heq, hused⟩
      cases hs.symm.trans hfirst
      exact ⟨elem, hzero, hslash, hfound⟩
    · have hunused := List.find?_some hs
      exact absurd (of_decide_eq_true hunused) (H.used s (heq ▸ List.mem_of_find?_eq_some hs))
  · rintro ⟨elem, hzero, hslash, hfound⟩
    obtain ⟨heq, hr⟩ | ⟨heq, -⟩ := H.before
    · exact ⟨elem, r, hzero, hslash,
        List.find?_eq_some_iff_append.mpr ⟨decide_eq_true hr, pre, post, heq, hused⟩, hfound⟩
    · exact absurd (heq ▸ mem_of_mem_visible (mem_of_lookup hfound)) H.notMem_pre

section Paths

variable (tree : vol.DirectoryTree clusters) (hparent : parent ∈ tree.dirs)
  (H : Inserts vol vol' clusters parent (tree.chain parent) cs' pre post r name) (hzero : 0 ∉ name)
  (hterm : vol.Terminated (vol.slots (tree.chain parent)))
  (htaken : ¬vol.TakesFound (vol.slots (tree.chain parent)))
include H hzero hparent hterm htaken

/-- A search for another name than the new one ends as before. -/
theorem search_same (hdir : dir ∈ tree.dirs) (helem : 0 ∉ elem) (hslash : Path.slash ∉ elem)
    (hnew : dir = parent → storedName name ≠ name83 elem 0 (.replicate 11 0x20)) :
    vol'.searchDirectory elem (vol'.fatWords + 1) dir = vol.searchDirectory elem (vol.fatWords + 1) dir ∧
      ∀ x, vol.searchDirectory elem (vol.fatWords + 1) dir = some (some x) → vol'.entry x = vol.entry x := by
  have hne : ∀ x, vol.searchDirectory elem (vol.fatWords + 1) dir = some (some x) → dir = parent → x ≠ r := by
    rintro x hx rfl rfl
    rw [tree.search tree.wf hdir, Option.some_inj] at hx
    exact htaken ((takesFound_iff H).mpr ⟨elem, helem, hslash, hx⟩)
  have hfound := fun x hx => H.search_found tree hparent hzero hdir (fun h => ⟨hnew h, hne x hx h⟩) hx
  refine ⟨?_, fun x hx => (hfound x hx).2⟩
  cases hsearch : vol.lookup (vol.slots (tree.chain dir)) elem with
  | some x =>
    have hx := (tree.search tree.wf hdir elem).trans (congrArg some hsearch)
    rw [hx]
    exact (hfound x hx).1
  | none =>
    by_cases hdir' : dir = parent
    · subst hdir'
      have hbehind := lookup_behind_none H hterm hsearch
      rw [H.search, tree.search tree.wf hdir, hsearch, H.lookup_none hzero hsearch (hnew rfl) hbehind]
    · exact H.search_other tree hparent hdir hdir' elem

theorem findFile_same (hpath : 0 ∉ path) (hstays : vol.StaysIn tree.dirs fuel path dir)
    (hnew : ∀ elem, (parent, elem) ∈ vol.levels fuel path dir →
    storedName name ≠ name83 elem 0 (.replicate 11 0x20)) :
    vol'.findFile fuel path dir = vol.findFile fuel path dir := by
  apply findFile_congr H.rootCluster
  rintro ⟨d, elem⟩ hlv
  obtain ⟨hsub, hslash⟩ := mem_splitOn (element_of_level hlv)
  refine search_same tree hparent H hzero hterm htaken (hstays _ hlv) (mt (hsub ·) hpath) hslash ?_
  rintro rfl
  exact hnew elem hlv

end Paths

theorem splitPath_subset : (splitPath path).2 ⊆ path := by
  intro ch hch
  have hmem := (List.takeWhile_sublist _).subset (List.mem_reverse.mp hch)
  exact List.mem_reverse.mp hmem

/-- The new name does not make an entry a deleted one. -/
theorem storedName_not_deleted (h : name.head? ≠ some kDeleted) :
    getElem (storedName name) 0 name_pos ≠ kDeleted := by
  obtain hfirst | ⟨ch, hhead, hfirst⟩ := storedName_first name
  · rw [hfirst]
    decide
  · rw [hfirst]
    intro hequal
    rw [eq_of_toupper hequal (by decide)] at hhead
    exact h hhead

/-- A deleted entry that is found is not found any more once it is taken. -/
theorem not_found_of_taken (tree : vol.DirectoryTree clusters) (hparent : parent ∈ tree.dirs)
    (H : Inserts vol vol' clusters parent (tree.chain parent) cs' pre post r name)
    (hdeleted : name.head? ≠ some kDeleted) (hslash : Path.slash ∉ elem)
    (hfound : vol.lookup (vol.slots (tree.chain parent)) elem = some r) :
    vol.StaysIn tree.dirs 1 elem parent ∧ vol.findFile 1 elem parent = some (some r, false) ∧
      vol'.findFile 1 elem parent ≠ some (some r, false) := by
  have hhead : elem.head? ≠ some Path.slash := fun hhead => hslash (List.mem_of_head? hhead)
  have hdirectory : vol.directoryOf parent = parent := if_neg (tree.ne_zero hparent)
  have hdirectory' : vol'.directoryOf parent = parent := if_neg (tree.ne_zero hparent)
  have hlevels : vol.StaysIn tree.dirs 1 elem parent := by
    intro lv hlv
    rw [levels, searched_of_relative hhead, hdirectory] at hlv
    obtain rfl | hlv := List.mem_cons.mp hlv
    · exact hparent
    · split at hlv
      · split at hlv <;> exact absurd hlv List.not_mem_nil
      · exact absurd hlv List.not_mem_nil
  rw [findFile_single hslash (relative_of_ne hhead), findFile_single hslash (relative_of_ne hhead),
    searched_of_relative hhead, searched_of_relative hhead, hdirectory, hdirectory',
    tree.search tree.wf hparent, hfound,
    H.search]
  refine ⟨hlevels, rfl, ?_⟩
  intro hagain
  obtain ⟨found, hlookup, hpair⟩ := Option.map_eq_some_iff.mp hagain
  cases hpair
  -- both the old and the new name of the entry are those of the element
  have hnew := H.nameIsEqual_iff.mp (nameIsEqual_of_lookup (Option.some_inj.mp hlookup))
  have hold := nameIsEqual_of_lookup hfound
  have hunused : vol.Unused r := by
    obtain ⟨-, hr⟩ | ⟨heq, -⟩ := H.before
    · exact hr
    · exact absurd (heq ▸ mem_of_mem_visible (mem_of_lookup hfound)) H.notMem_pre
  apply storedName_not_deleted hdeleted
  rw [hnew, ← firstByte_of_nameIsEqual hold]
  exact hunused.resolve_left (ne_zero_of_mem_visible (mem_of_lookup hfound))

theorem staleVolume_wellFormed : Files.staleVolume.WellFormed 126 := ⟨by decide, by decide, by decide⟩

theorem staleVolume_words : 126 + 2 = Files.staleVolume.fatWords := rfl

theorem staleVolume_entries : 0 < Files.staleVolume.entriesPerCluster := by decide

theorem staleVolume_root : Files.staleVolume.FileChain 126 2 [2] := ⟨.last (by decide), by decide⟩

theorem staleVolume_files : ∀ r ∈ Files.staleVolume.slots [2], (Files.staleVolume.entry r).attr ≠ kDirectory := by
  decide

def staleTree : DirectoryTree Files.staleVolume 126 :=
  rootOnly staleVolume_wellFormed staleVolume_words staleVolume_entries staleVolume_root staleVolume_files

end Volume

end MikanOS.Fat
