import MikanOS.Fat.Allocation
import MikanOS.Fat.Directory

/-! # Looking up names

A directory is the list of the entries in the clusters of its chain, of which those in front of the first end
mark count. `FindFile` and `AllocateEntry` in terms of that list, and the levels of `FindFile`. -/

namespace MikanOS.Fat

open LinkedChain

def DirectoryEntry.firstByte (e : DirectoryEntry) : UInt8 := getElem e.name 0 name_pos

/-- The path without the slash at its beginning. -/
def relative (path : Path) : Path := if path.head? = some Path.slash then path.tail else path

/-- The element that a level of `FindFile` copies into `path_elem`. -/
def element (path : Path) : Path := (NextPathElement (relative path)).2.2

/-- The path for the next level. -/
def rest (path : Path) : Path := (NextPathElement (relative path)).1.getD []

/-- Whether a slash follows the element. -/
def slashAfter (path : Path) : Bool := (NextPathElement (relative path)).2.1

namespace Volume

section Definitions

variable (vol : Volume)

/-- The entries of the directory with the clusters `cs`. -/
def slots (cs : List Nat) : List EntryRef :=
  cs.flatMap fun c => (List.range vol.entriesPerCluster).map (EntryRef.mk c)

/-- The entries in front of the end mark. -/
def visible (ss : List EntryRef) : List EntryRef := ss.takeWhile fun r => (vol.entry r).firstByte ≠ 0

/-- The entry with the name. -/
def lookup (ss : List EntryRef) (name : Path) : Option EntryRef :=
  (vol.visible ss).find? fun r => NameIsEqual (vol.entry r) name

/-- The entry is the end mark or a deleted one. -/
def Unused (r : EntryRef) : Prop := (vol.entry r).firstByte = 0 ∨ (vol.entry r).firstByte = 0xe5

instance : DecidablePred vol.Unused := fun r =>
  inferInstanceAs (Decidable ((vol.entry r).firstByte = 0 ∨ (vol.entry r).firstByte = 0xe5))

/-- The directory that a level of `FindFile` searches. -/
def searched (path : Path) (directoryCluster : Nat) : Nat :=
  if path.head? = some Path.slash ∨ directoryCluster = 0 then vol.rootCluster else directoryCluster

/-- The levels of `FindFile`: where each searches, and for which element of the path. -/
def levels : (fuel : Nat) → Path → Nat → List (Nat × Path)
  | 0, _, _ => []
  | fuel + 1, path, directoryCluster =>
    (vol.searched path directoryCluster, element path) ::
      match vol.searchDirectory (element path) (vol.fatWords + 1) (vol.searched path directoryCluster) with
      | some (some r) =>
        if (vol.entry r).attr = kDirectory ∧ ¬rest path = [] then
          levels fuel (rest path) (vol.entry r).firstCluster
        else []
      | _ => []

end Definitions

variable {vol vol' : Volume} {clusters c fuel : Nat} {cs : List Nat} {ss : List EntryRef} {r : EntryRef}
  {name path : Path}

/-! ## One directory -/

theorem visible_cons : vol.visible (r :: ss) =
    if (vol.entry r).firstByte = 0 then [] else r :: vol.visible ss := by
  by_cases h : (vol.entry r).firstByte = 0
  · rw [if_pos h]
    exact List.takeWhile_cons_of_neg (by simp [h])
  · rw [if_neg h]
    exact List.takeWhile_cons_of_pos (by simp [h])

theorem lookup_cons : vol.lookup (r :: ss) name =
    if (vol.entry r).firstByte = 0 then none
    else if NameIsEqual (vol.entry r) name then some r else vol.lookup ss name := by
  rw [lookup, visible_cons]
  split
  · rfl
  · rw [List.find?_cons]
    by_cases h : NameIsEqual (vol.entry r) name
    · simp only [h, decide_true, if_true]
    · simp only [h, decide_false, if_false]
      rfl

theorem mem_of_mem_visible (h : r ∈ vol.visible ss) : r ∈ ss := (List.takeWhile_sublist _).subset h

theorem ne_zero_of_mem_visible (h : r ∈ vol.visible ss) : (vol.entry r).firstByte ≠ 0 := by
  have hvisible := List.mem_takeWhile_imp h
  exact of_decide_eq_true hvisible

theorem mem_of_lookup (h : vol.lookup ss name = some r) : r ∈ vol.visible ss := List.mem_of_find?_eq_some h

theorem nameIsEqual_of_lookup (h : vol.lookup ss name = some r) : NameIsEqual (vol.entry r) name := by
  have hfound := List.find?_some h
  exact of_decide_eq_true hfound

/-- What is found among some entries decides, the rest of the directory counts only if it is nothing. -/
theorem lookup_append (l : List EntryRef) : vol.lookup (l ++ ss) name =
    match l.find? fun r => (vol.entry r).firstByte = 0 ∨ NameIsEqual (vol.entry r) name with
    | none => vol.lookup ss name
    | some r => if (vol.entry r).firstByte = 0 then none else some r := by
  induction l with
  | nil => rfl
  | cons a l ih =>
    rw [List.cons_append, lookup_cons, List.find?_cons]
    by_cases hzero : (vol.entry a).firstByte = 0
    · simp only [hzero, true_or, decide_true, if_true]
    · by_cases hname : NameIsEqual (vol.entry a) name
      · simp only [hzero, hname, or_true, decide_true, if_true, if_false]
      · simp only [hzero, hname, or_self, decide_false, if_false, ih]

theorem slots_cons : vol.slots (c :: cs) =
    (List.range vol.entriesPerCluster).map (EntryRef.mk c) ++ vol.slots cs := List.flatMap_cons

theorem cluster_mem_of_mem_slots (h : r ∈ vol.slots cs) : r.cluster ∈ cs := by
  obtain ⟨c, hc, hr⟩ := List.mem_flatMap.mp h
  obtain ⟨i, -, rfl⟩ := List.mem_map.mp hr
  exact hc

theorem cluster_mem_of_mem_visible (h : r ∈ vol.visible (vol.slots cs)) : r.cluster ∈ cs :=
  cluster_mem_of_mem_slots (mem_of_mem_visible h)

/-- `FindFile` stops at the entry: at the end mark, or because of its name. -/
def Stops (vol : Volume) (name : Path) (r : EntryRef) : Bool :=
  (vol.entry r).firstByte = 0 ∨ NameIsEqual (vol.entry r) name

/-- One cluster of a directory. -/
theorem searchDirectory_succ (hc : c ≠ kEndOfClusterchain) : vol.searchDirectory name (fuel + 1) c =
    match ((List.range vol.entriesPerCluster).map (EntryRef.mk c)).find? (vol.Stops name) with
    | none => vol.searchDirectory name fuel (vol.nextCluster c)
    | some r => if (vol.entry r).firstByte = 0 then some none else some (some r) := by
  rw [List.find?_map, searchDirectory, if_neg hc]
  generalize hhit : List.find? _ (List.range vol.entriesPerCluster) = hit
  generalize hhit' : List.find? _ (List.range vol.entriesPerCluster) = hit'
  cases hhit.symm.trans hhit'
  cases hit with
  | none | some i => rfl

/-- The loop of `FindFile` over a directory. -/
theorem searchDirectory_spec (hv : vol.WellFormed clusters) (h : vol.FileChain clusters c cs)
    (hfuel : cs.length < fuel) : vol.searchDirectory name fuel c = some (vol.lookup (vol.slots cs) name) := by
  have hend : ∀ x, x < clusters + 2 → x ≠ kEndOfClusterchain := by
    intro x hx
    have := hv.not_end
    simp only [kEndOfClusterchain]
    omega
  obtain ⟨hchain, hrange⟩ := h
  -- what the clusters behind the first one give
  have hstep : ∀ {c : Nat} {cs : List Nat} {fuel : Nat}, c ≠ kEndOfClusterchain →
      vol.searchDirectory name fuel (vol.nextCluster c) = some (vol.lookup (vol.slots cs) name) →
      vol.searchDirectory name (fuel + 1) c = some (vol.lookup (vol.slots (c :: cs)) name) := by
    intro c cs fuel hc hrest
    rw [searchDirectory_succ hc, slots_cons, lookup_append, hrest]
    change (match List.find? (vol.Stops name) _ with
      | none => _
      | some r => _) = some (match List.find? (vol.Stops name) _ with
        | none => _
        | some r => _)
    cases List.find? (vol.Stops name) _ with
    | none => rfl
    | some r =>
      simp only []
      split <;> rfl
  induction hchain generalizing fuel with
  | @last c hlast =>
    obtain ⟨fuel, rfl⟩ : ∃ k, fuel = k + 2 := ⟨fuel - 2, by simp at hfuel; omega⟩
    refine hstep (hend c (hrange c List.mem_cons_self).2) ?_
    rw [nextCluster, if_pos hlast, searchDirectory, if_pos rfl]
    rfl
  | @link c cs hlink hchain ih =>
    obtain ⟨fuel, rfl⟩ : ∃ k, fuel = k + 1 := ⟨fuel - 1, by simp at hfuel; omega⟩
    refine hstep (hend c (hrange c List.mem_cons_self).2) ?_
    rw [nextCluster, if_neg hlink]
    exact ih (by simpa using hfuel) fun x hx => hrange x (List.mem_cons_of_mem _ hx)

/-- One cluster of a directory. -/
theorem findSlot_succ : vol.findSlot (fuel + 1) c =
    match ((List.range vol.entriesPerCluster).map (EntryRef.mk c)).find? (vol.Unused ·) with
    | some r => some (.inl r)
    | none =>
      if vol.nextCluster c = kEndOfClusterchain then some (.inr c)
      else vol.findSlot fuel (vol.nextCluster c) := by
  rw [List.find?_map, findSlot]
  generalize hslot : List.find? _ (List.range vol.entriesPerCluster) = slot
  generalize hslot' : List.find? _ (List.range vol.entriesPerCluster) = slot'
  cases hslot.symm.trans hslot'
  cases slot with
  | none | some i => rfl

/-- The loop of `AllocateEntry`: the first unused entry of the directory, or its last cluster. -/
theorem findSlot_eq (h : Chain vol.fat IsEndOfClusterchain c cs) (hfuel : cs.length ≤ fuel) :
    vol.findSlot fuel c = some (match (vol.slots cs).find? (vol.Unused ·) with
      | some r => .inl r
      | none => .inr (cs.getLast h.ne_nil)) := by
  induction h generalizing fuel with
  | @last c hend =>
    obtain ⟨fuel, rfl⟩ : ∃ k, fuel = k + 1 := ⟨fuel - 1, by simp at hfuel; omega⟩
    rw [findSlot_succ, slots_cons, List.find?_append, nextCluster, if_pos hend, if_pos rfl]
    cases List.find? (fun r => decide (vol.Unused r)) _ with
    | none | some r => rfl
  | @link c cs hlink hchain ih =>
    obtain ⟨fuel, rfl⟩ : ∃ k, fuel = k + 1 := ⟨fuel - 1, by simp at hfuel; omega⟩
    have hne : vol.fat c ≠ kEndOfClusterchain := fun heq => hlink (heq ▸ by decide)
    rw [findSlot_succ, slots_cons, List.find?_append, nextCluster, if_neg hlink, if_neg hne,
      ih (by simpa using hfuel)]
    cases List.find? (fun r => decide (vol.Unused r)) _ with
    | none => simp only [Option.none_or, List.getLast_cons hchain.ne_nil]
    | some r => rfl

/-! ## One level -/

/-- A level of `FindFile`. -/
theorem findFile_succ (fuel : Nat) (path : Path) (dc : Nat) : vol.findFile (fuel + 1) path dc =
    (vol.searchDirectory (element path) (vol.fatWords + 1) (vol.searched path dc)).bind fun
      | none => some (none, slashAfter path)
      | some r =>
        if (vol.entry r).attr = kDirectory ∧ ¬rest path = [] then
          vol.findFile fuel (rest path) (vol.entry r).firstCluster
        else some (some r, slashAfter path) := rfl

/-- A level at which an entry is found. -/
theorem findFile_hit (h : vol.searchDirectory (element path) (vol.fatWords + 1) (vol.searched path c) =
    some (some r)) :
    vol.findFile (fuel + 1) path c =
      if (vol.entry r).attr = kDirectory ∧ ¬rest path = [] then
        vol.findFile fuel (rest path) (vol.entry r).firstCluster
      else some (some r, slashAfter path) := by
  rw [findFile_succ, h]
  rfl

theorem first_mem_levels : (vol.searched path c, element path) ∈ vol.levels (fuel + 1) path c := by
  rw [levels]
  exact List.mem_cons_self

/-- `FindFile` depends only on what is found at its levels. -/
theorem findFile_congr (hroot : vol'.rootCluster = vol.rootCluster) (h : ∀ lv ∈ vol.levels fuel path c,
    vol'.searchDirectory lv.2 (vol'.fatWords + 1) lv.1 = vol.searchDirectory lv.2 (vol.fatWords + 1) lv.1 ∧
      ∀ r, vol.searchDirectory lv.2 (vol.fatWords + 1) lv.1 = some (some r) → vol'.entry r = vol.entry r) :
    vol'.findFile fuel path c = vol.findFile fuel path c := by
  induction fuel generalizing path c with
  | zero => rfl
  | succ fuel ih =>
    have hsearched : vol'.searched path c = vol.searched path c := by rw [searched, searched, hroot]
    rw [levels] at h
    obtain ⟨⟨hsearch, hentry⟩, h⟩ := List.forall_mem_cons.mp h
    rw [findFile_succ, findFile_succ, hsearched, hsearch]
    generalize vol.searchDirectory _ _ (vol.searched path c) = found at h hentry
    match found with
    | none => rfl
    | some none => rfl
    | some (some r) =>
      change (if _ then _ else _) = if _ then _ else _
      rw [hentry r rfl]
      split
      · rename_i hgo
        simp only [if_pos hgo] at h
        exact ih h
      · rfl

/-- What `FindFile` returns is found at a level, and if it is an entry, something is found at every level. -/
theorem findFile_found {after : Bool} (h : vol.findFile fuel path c = some (some r, after)) :
    (∃ lv ∈ vol.levels fuel path c, vol.searchDirectory lv.2 (vol.fatWords + 1) lv.1 = some (some r)) ∧
      ∀ lv ∈ vol.levels fuel path c, ∃ x, vol.searchDirectory lv.2 (vol.fatWords + 1) lv.1 = some
      (some x) := by
  induction fuel generalizing path c with
  | zero => cases h
  | succ fuel ih =>
    rw [findFile_succ] at h
    rw [levels]
    generalize hsearch : vol.searchDirectory (element path) _ (vol.searched path c) = found at h
    match found with
    | none => cases h
    | some none => cases h
    | some (some x) =>
      change (if _ then _ else _) = _ at h
      simp only [List.forall_mem_cons, List.exists_mem_cons_iff, hsearch]
      split at h
      · rename_i hgo
        obtain ⟨hlast, hall⟩ := ih h
        simp only [if_pos hgo]
        exact ⟨Or.inr hlast, ⟨x, rfl⟩, hall⟩
      · rename_i hstop
        cases h
        simp only [if_neg hstop]
        exact ⟨Or.inl trivial, ⟨r, rfl⟩, fun _ h => absurd h List.not_mem_nil⟩

end Volume

end MikanOS.Fat
