import MikanOS.Fat.PathElements

/-! # Walking along a path

What a path means in a tree of directories, one component after the other, and what `FindFile` makes of it.
Every level of `FindFile` reads its path as if it were a whole one, so that a second slash in a row is the
beginning of an absolute path. -/

namespace MikanOS.Fat

/-- What is between the slashes of a path, without the empty pieces. -/
def components (path : Path) : List Path := (path.splitOn Path.slash).filter (· ≠ [])

def endsInSlash (path : Path) : Bool := path.getLast? = some Path.slash

/-- The first byte of a deleted entry, as `AllocateEntry` and `ListAllEntries` know it. -/
def kDeleted : UInt8 := 0xe5

/-- No two slashes in a row, and at least one component, of which none begins with the mark of a deleted
entry. -/
structure Plain (path : Path) : Prop where
  nonempty : components path ≠ []
  single : ¬[Path.slash, Path.slash] <:+: path
  live : ∀ name ∈ components path, name.head? ≠ some kDeleted

namespace Volume

variable (vol : Volume)

/-- Directories with the chains of their clusters, among them the root directory, whose entries for
directories lead to directories. -/
structure Tree (clusters : Nat) where
  dirs : Set Nat
  chain : Nat → List Nat
  root_mem : vol.rootCluster ∈ dirs
  isChain : ∀ dir ∈ dirs, vol.FileChain clusters dir (chain dir)
  descends : ∀ dir ∈ dirs, ∀ r ∈ vol.visible (vol.slots (chain dir)), (vol.entry r).attr = kDirectory →
    (vol.entry r).firstByte ≠ kDeleted → (vol.entry r).firstCluster = 0 ∨ (vol.entry r).firstCluster ∈ dirs

/-- The entry with the name that is not a deleted one. -/
def lookupLive (ss : List EntryRef) (name : Path) : Option EntryRef :=
  (vol.visible ss).find? fun r => (vol.entry r).firstByte ≠ kDeleted ∧ NameIsEqual (vol.entry r) name

/-- The root directory has the cluster number 0 where a directory is named. -/
def directoryOf (cluster : Nat) : Nat := if cluster = 0 then vol.rootCluster else cluster

/-- The walk from a directory on: the first entry that is not a directory, or the entry of the last component,
and whether a slash follows the component at which the walk ends. -/
def walk (chain : Nat → List Nat) (trailing : Bool) : List Path → Nat → Option EntryRef × Bool
  | [], _ => (none, false)
  | name :: names, dir =>
    match vol.lookupLive (vol.slots (chain dir)) name with
    | none => (none, names ≠ [] ∨ trailing)
    | some r =>
      if (vol.entry r).attr = kDirectory ∧ names ≠ [] then
        walk chain trailing names (vol.directoryOf (vol.entry r).firstCluster)
      else (some r, names ≠ [] ∨ trailing)

/-- What the path stands for. -/
def resolve (chain : Nat → List Nat) (path : Path) (dir : Nat) : Option EntryRef × Bool :=
  vol.walk chain (endsInSlash path) (components path) (vol.searched path dir)

end Volume

/-! ## Names in directories -/

/-- Only letters come from other bytes. -/
theorem eq_of_toupper {ch b : UInt8} (h : toupper ch = b) (hb : b.toNat < 0x41 ∨ 0x5a < b.toNat) :
    ch = b := by
  rw [toupper] at h
  split at h
  · rename_i hlower
    have hsub := UInt8.toNat_sub_of_le ch 0x20 (UInt8.le_trans (by decide) hlower.1)
    have hlow := UInt8.le_iff_toNat_le.mp hlower.1
    have hhigh := UInt8.le_iff_toNat_le.mp hlower.2
    rw [h] at hsub
    change 0x61 ≤ ch.toNat at hlow
    change ch.toNat ≤ 0x7a at hhigh
    change b.toNat = ch.toNat - 0x20 at hsub
    omega
  · exact h

/-- The places in front of `i83` keep what they have. -/
theorem name83_getElem {name : Path} {i83 i : Nat} {acc : Vector UInt8 11} (h : i < i83) (hi : i < 8) :
    getElem (name83 name i83 acc) i (by omega) = getElem acc i (by omega) := by
  induction name generalizing i83 acc with
  | nil => rfl
  | cons ch name ih =>
    rw [name83]
    split
    · split
      · exact ih hi
      · rw [ih (by omega), Vector.getElem_set_ne _ _ (by omega)]
    · rfl

/-- The first byte of the name that a component is compared with. -/
theorem name83_first (name : Path) : getElem (name83 name 0 (.replicate 11 0x20)) 0 name_pos =
    match name with
    | [] => 0x20
    | ch :: _ => if ch = Path.dot then 0x20 else toupper ch := by
  cases name with
  | nil => rfl
  | cons ch name =>
    rw [name83, dif_pos name_pos]
    change _ = if ch = Path.dot then _ else _
    split
    · rw [name83_getElem (by decide) (by decide)]
      rfl
    · rw [name83_getElem (by decide) (by decide), Vector.getElem_set_self]

theorem firstByte_of_nameIsEqual {e : DirectoryEntry} {name : Path} (h : NameIsEqual e name) :
    e.firstByte = getElem (name83 name 0 (.replicate 11 0x20)) 0 name_pos := by
  rw [DirectoryEntry.firstByte, ← h]

/-- An entry with the name of a component is a deleted one only if the component begins with the mark. -/
theorem deleted_iff {e : DirectoryEntry} {name : Path} (h : NameIsEqual e name) :
    e.firstByte = kDeleted ↔ name.head? = some kDeleted := by
  rw [firstByte_of_nameIsEqual h, name83_first]
  cases name with
  | nil => decide
  | cons ch name =>
    change (if ch = Path.dot then _ else _) = _ ↔ some ch = some kDeleted
    rw [Option.some_inj]
    split
    · rename_i hdot
      rw [hdot]
      decide
    · constructor
      · exact fun h => eq_of_toupper h (by decide)
      · rintro rfl
        decide

namespace Volume

variable {vol : Volume} {clusters : Nat} {ss : List EntryRef} {name path : Path} {r : EntryRef} {dir fuel : Nat}

theorem lookupLive_eq (h : name.head? ≠ some kDeleted) : vol.lookupLive ss name = vol.lookup ss name := by
  apply List.find?_congr
  intro r _
  apply decide_eq_decide.mpr
  constructor
  · exact And.right
  · intro hname
    exact ⟨mt (deleted_iff hname).mp h, hname⟩

theorem lookupLive_eq_none (h : name.head? = some kDeleted) : vol.lookupLive ss name = none := by
  apply List.find?_eq_none.mpr
  intro r _ hr
  obtain ⟨hlive, hname⟩ := of_decide_eq_true hr
  exact hlive ((deleted_iff hname).mpr h)

end Volume

/-! ## Paths without repeated slashes -/

section Plain

variable {path elem tail : Path}

theorem element_eq (hrel : relative path = elem) (h : Path.slash ∉ elem) :
    element path = elem ∧ rest path = [] ∧ slashAfter path = false := by
  rw [element, rest, slashAfter, hrel, NextPathElement_of_notMem h]
  exact ⟨rfl, rfl, rfl⟩

theorem element_append (hrel : relative path = elem ++ Path.slash :: tail) (h : Path.slash ∉ elem) :
    element path = elem ∧ rest path = tail ∧ slashAfter path = true := by
  rw [element, rest, slashAfter, hrel, NextPathElement_append h]
  exact ⟨rfl, rfl, rfl⟩

theorem components_of_notMem (h : Path.slash ∉ elem) (hne : elem ≠ []) : components elem = [elem] := by
  rw [components, List.splitOn_eq_singleton h]
  exact List.filter_cons_of_pos (decide_eq_true hne)

theorem components_append (h : Path.slash ∉ elem) (hne : elem ≠ []) :
    components (elem ++ Path.slash :: tail) = elem :: components tail := by
  rw [components, splitOn_append h]
  exact List.filter_cons_of_pos (decide_eq_true hne)

theorem components_slash : components (Path.slash :: tail) = components tail := by
  have hsplit := @splitOn_append [] tail List.not_mem_nil
  rw [components, ← List.nil_append (Path.slash :: tail), hsplit]
  exact List.filter_cons_of_neg (by decide)

theorem components_relative : components (relative path) = components path := by
  by_cases habs : path.head? = some Path.slash
  · obtain ⟨tail, rfl⟩ := List.head?_eq_some_iff.mp habs
    rw [relative_slash, components_slash]
  · rw [relative_of_ne habs]

theorem endsInSlash_append (hne : tail ≠ []) :
    endsInSlash (elem ++ Path.slash :: tail) = endsInSlash tail := by
  rw [endsInSlash, endsInSlash, List.getLast?_append, List.getLast?_cons]
  obtain ⟨last, hlast⟩ := Option.ne_none_iff_exists'.mp (mt List.getLast?_eq_none_iff.mp hne)
  rw [hlast]
  rfl

theorem endsInSlash_single : endsInSlash (elem ++ [Path.slash]) = true := by
  rw [endsInSlash, List.getLast?_concat]
  exact decide_eq_true rfl

theorem endsInSlash_of_notMem (h : Path.slash ∉ elem) : endsInSlash elem = false :=
  decide_eq_false (mt List.mem_of_getLast? h)

/-- The last character of a path with a component belongs to its relative part. -/
theorem endsInSlash_relative (hne : components path ≠ []) :
    endsInSlash (relative path) = endsInSlash path := by
  by_cases habs : path.head? = some Path.slash
  · obtain ⟨tail, rfl⟩ := List.head?_eq_some_iff.mp habs
    rw [components_slash] at hne
    have htail : tail ≠ [] := fun hnil => hne (by rw [hnil]; rfl)
    exact (@endsInSlash_append [] tail htail).symm
  · rw [relative_of_ne habs]

/-- A path that does not begin with a slash. -/
structure Relative (path : Path) : Prop extends Plain path where
  head : path.head? ≠ some Path.slash

theorem relative_suffix (path : Path) : relative path <:+ path := by
  rw [relative]
  split
  · exact List.tail_suffix path
  · exact List.suffix_refl path

theorem Plain.relative (h : Plain path) : Relative (relative path) := by
  refine ⟨⟨?_, ?_, ?_⟩, ?_⟩
  · rw [components_relative]
    exact h.nonempty
  · intro hdouble
    exact h.single (hdouble.trans (relative_suffix path).isInfix)
  · rw [components_relative]
    exact h.live
  · intro hhead
    by_cases habs : path.head? = some Path.slash
    · obtain ⟨tail, rfl⟩ := List.head?_eq_some_iff.mp habs
      obtain ⟨tail, rfl⟩ := List.head?_eq_some_iff.mp hhead
      exact h.single ⟨[], tail, rfl⟩
    · rw [relative_of_ne habs] at hhead
      exact habs hhead

/-- A relative path is a component, or a component, a slash and nothing or a relative path. -/
theorem Relative.elem_cases (h : Relative path) :
    (Path.slash ∉ path ∧ path ≠ []) ∨ ∃ elem tail, path = elem ++ Path.slash :: tail ∧ Path.slash ∉ elem ∧
      elem ≠ [] ∧ (tail = [] ∨ Relative tail) := by
  obtain hslash | ⟨elem, tail, hslash, rfl⟩ := path_cases path
  · refine Or.inl ⟨hslash, ?_⟩
    rintro rfl
    exact h.nonempty rfl
  · have hne : elem ≠ [] := by
      rintro rfl
      exact h.head rfl
    refine Or.inr ⟨elem, tail, rfl, hslash, hne, ?_⟩
    by_cases htail : tail = []
    · exact Or.inl htail
    have hinside : ∀ {l : Path}, l <:+: tail → l <:+: elem ++ Path.slash :: tail := fun hl =>
      hl.trans ((List.suffix_cons _ _).trans (List.suffix_append _ _)).isInfix
    have hhead : tail.head? ≠ some Path.slash := by
      intro hhead
      obtain ⟨tail, rfl⟩ := List.head?_eq_some_iff.mp hhead
      exact h.single ⟨elem, tail, by simp⟩
    have hcomponents := @components_append elem tail hslash hne
    refine Or.inr ⟨⟨?_, fun hdouble => h.single (hinside hdouble), ?_⟩, hhead⟩
    · -- what is behind the slash begins with a component
      obtain hmem | ⟨first, tail, hmem, rfl⟩ := path_cases tail
      · rw [components_of_notMem hmem htail]
        exact List.cons_ne_nil _ _
      · have hfirst : first ≠ [] := by
          rintro rfl
          exact hhead rfl
        rw [components_append hmem hfirst]
        exact List.cons_ne_nil _ _
    · intro name hname
      exact h.live name (hcomponents ▸ List.mem_cons_of_mem _ hname)

end Plain

namespace Volume

variable {vol : Volume} {clusters : Nat} {path : Path} {dir fuel : Nat}

theorem searched_of_relative (h : path.head? ≠ some Path.slash) :
    vol.searched path dir = vol.directoryOf dir := by
  rw [searched, directoryOf]
  simp only [h, false_or]

/-- `FindFile` looks only at the relative part of a path once it knows where to begin. -/
theorem findFile_relative (h : (relative path).head? ≠ some Path.slash) (hdir : vol.searched path dir ≠ 0) :
    vol.findFile fuel path dir = vol.findFile fuel (relative path) (vol.searched path dir) := by
  have hrel : relative (relative path) = relative path := relative_of_ne h
  have hsearched : vol.searched (relative path) (vol.searched path dir) = vol.searched path dir := by
    rw [searched_of_relative h, directoryOf, if_neg hdir]
  cases fuel with
  | zero => rfl
  | succ fuel =>
    have helem : element (relative path) = element path := by rw [element, hrel, ← element]
    have hrest : rest (relative path) = rest path := by rw [rest, hrel, ← rest]
    have hafter : slashAfter (relative path) = slashAfter path := by rw [slashAfter, hrel, ← slashAfter]
    rw [findFile_succ, findFile_succ, hsearched, helem, hrest, hafter]

theorem Tree.directoryOf_mem (tree : vol.Tree clusters) (h : dir = 0 ∨ dir ∈ tree.dirs) :
    vol.directoryOf dir ∈ tree.dirs := by
  rw [directoryOf]
  split
  · exact tree.root_mem
  · rename_i hdir
    exact h.resolve_left hdir

theorem Tree.searched_mem (tree : vol.Tree clusters) (h : dir = 0 ∨ dir ∈ tree.dirs) :
    vol.searched path dir ∈ tree.dirs := by
  rw [searched]
  split
  · exact tree.root_mem
  · rename_i hnot
    exact h.resolve_left fun hzero => hnot (Or.inr hzero)

theorem Tree.ne_zero (tree : vol.Tree clusters) (h : dir ∈ tree.dirs) : dir ≠ 0 := by
  intro hzero
  have hmem := List.mem_of_head? (tree.isChain dir h).chain.head?_eq
  have hrange := (tree.isChain dir h).in_range dir hmem
  omega

/-- One directory of the tree. -/
theorem Tree.search (tree : vol.Tree clusters) (hv : vol.WellFormed clusters) (h : dir ∈ tree.dirs)
    (name : Path) :
    vol.searchDirectory name (vol.fatWords + 1) dir = some
    (vol.lookup (vol.slots (tree.chain dir)) name) := by
  have hle := (tree.isChain dir h).length_le
  have himage := hv.in_image
  exact searchDirectory_spec hv (tree.isChain dir h) (by omega)

/-- A directory that is found leads to a directory. -/
theorem Tree.found (tree : vol.Tree clusters) (h : dir ∈ tree.dirs) {name : Path} {r : EntryRef}
    (hname : name.head? ≠ some kDeleted) (hfound : vol.lookup (vol.slots (tree.chain dir)) name = some r)
    (hattr : (vol.entry r).attr = kDirectory) :
    (vol.entry r).firstCluster = 0 ∨ (vol.entry r).firstCluster ∈ tree.dirs := by
  have hlive := mt (deleted_iff (nameIsEqual_of_lookup hfound)).mp hname
  exact tree.descends dir h r (mem_of_lookup hfound) hattr hlive

/-- `FindFile` on a relative path. -/
theorem findFile_of_relative (tree : vol.Tree clusters) (hv : vol.WellFormed clusters) (hpath : Relative path)
    (hdir : dir = 0 ∨ dir ∈ tree.dirs) (hfuel : path.length < fuel) : vol.findFile fuel path dir =
      some (vol.walk tree.chain (endsInSlash path) (components path) (vol.directoryOf dir)) := by
  induction fuel generalizing path dir with
  | zero => exact absurd hfuel (Nat.not_lt_zero _)
  | succ fuel ih =>
    have hmem := tree.directoryOf_mem hdir
    have hrel := relative_of_ne hpath.head
    rw [findFile_succ, searched_of_relative hpath.head, tree.search hv hmem, Option.bind_some]
    obtain ⟨hslash, hne⟩ | ⟨elem, tail, rfl, hslash, hne, htail⟩ := hpath.elem_cases
    · obtain ⟨helem, hrest, hafter⟩ := element_eq hrel hslash
      have hcomponents := components_of_notMem hslash hne
      have hlive := hpath.live path (hcomponents ▸ List.mem_singleton_self _)
      rw [helem, hrest, hafter, hcomponents, walk, lookupLive_eq hlive, endsInSlash_of_notMem hslash]
      cases vol.lookup (vol.slots (tree.chain (vol.directoryOf dir))) path with
      | none => rfl
      | some r => simp
    · obtain ⟨helem, hrest, hafter⟩ := element_append hrel hslash
      have hcomponents := @components_append elem tail hslash hne
      have hlive := hpath.live elem (hcomponents ▸ List.mem_cons_self)
      -- a slash follows the component, whether the path ends there or not
      have hflag : decide (components tail ≠ [] ∨ endsInSlash (elem ++ Path.slash :: tail) = true) =
          true := by
        obtain rfl | htail := htail
        · exact decide_eq_true (Or.inr endsInSlash_single)
        · exact decide_eq_true (Or.inl htail.nonempty)
      have hlast : tail = [] ↔ components tail = [] := by
        obtain rfl | htail := htail
        · exact ⟨fun _ => rfl, fun _ => rfl⟩
        · constructor
          · rintro rfl
            rfl
          · intro hnil
            exact absurd hnil htail.nonempty
      rw [helem, hrest, hafter, hcomponents, walk, lookupLive_eq hlive, hflag]
      generalize hfound : vol.lookup (vol.slots (tree.chain (vol.directoryOf dir))) elem = found
      cases found with
      | none => rfl
      | some r =>
        change (if _ then _ else _) = some (if _ then _ else _)
        by_cases hgo : (vol.entry r).attr = kDirectory ∧ ¬tail = []
        · have htail := htail.resolve_left hgo.2
          rw [if_pos hgo, if_pos ⟨hgo.1, htail.nonempty⟩, endsInSlash_append hgo.2]
          apply ih htail (tree.found hmem hlive hfound hgo.1)
          rw [List.length_append, List.length_cons] at hfuel
          omega
        · rw [if_neg hgo, if_neg fun h => hgo ⟨h.1, mt hlast.mp h.2⟩]

/-- `FindFile` on a plain path. -/
theorem findFile_of_plain (tree : vol.Tree clusters) (hv : vol.WellFormed clusters) (hpath : Plain path)
    (hdir : dir = 0 ∨ dir ∈ tree.dirs) (hfuel : path.length < fuel) :
    vol.findFile fuel path dir = some (vol.resolve tree.chain path dir) := by
  have hrel := hpath.relative
  have hsearched := @Tree.searched_mem _ _ path _ tree hdir
  have hne := tree.ne_zero hsearched
  have hlength : (relative path).length < fuel := Nat.lt_of_le_of_lt relative_length_le hfuel
  rw [findFile_relative hrel.head hne, findFile_of_relative tree hv hrel (Or.inr hsearched) hlength, resolve,
    components_relative, endsInSlash_relative hpath.nonempty, directoryOf, if_neg hne]

end Volume

end MikanOS.Fat
