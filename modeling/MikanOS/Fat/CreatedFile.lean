import MikanOS.Fat.DirectoryTree

/-! # Finding a created file

`SetFileName` and `NameIsEqual` turn a name into eleven bytes each in its own way. A created file is found
again where they agree, and where `FindFile` gets from the path to the directory in which the file was
created. -/

namespace MikanOS.Fat

/-! ## Names with a base and an extension -/

/-- The bytes of an element without a dot go to the places from `i83` on. -/
theorem name83_getElem_of_notMem {elem : Path} {i83 j : Nat} {acc : Vector UInt8 11} (h : Path.dot ∉ elem)
    (hlength : i83 + elem.length ≤ 11) (hj : j < 11) : getElem (name83 elem i83 acc) j hj =
      if i83 ≤ j ∧ j < i83 + elem.length then toupper (elem.getD (j - i83) 0x20) else getElem acc j hj := by
  induction elem generalizing i83 acc with
  | nil => rw [if_neg (by simp), name83]
  | cons ch elem ih =>
    obtain ⟨hch, h⟩ := not_or.mp (mt List.mem_cons.mpr h)
    rw [List.length_cons] at hlength
    rw [name83, dif_pos (by omega), if_neg (Ne.symm hch), ih h (by omega), List.length_cons]
    by_cases heq : j = i83
    · subst heq
      rw [if_neg (by omega), if_pos (by omega), Vector.getElem_set_self, Nat.sub_self]
      rfl
    · rw [Vector.getElem_set_ne _ _ (Ne.symm heq)]
      by_cases hlt : i83 + 1 ≤ j ∧ j < i83 + 1 + elem.length
      · obtain ⟨d, rfl⟩ : ∃ d, j = i83 + (d + 1) := ⟨j - i83 - 1, by omega⟩
        have hsub : i83 + (d + 1) - (i83 + 1) = d := by omega
        rw [if_pos hlt, if_pos (by omega), Nat.add_sub_cancel_left, hsub]
        rfl
      · rw [if_neg hlt, if_neg (by omega)]

theorem name83_append {base ext : Path} {i83 : Nat} {acc : Vector UInt8 11} (h : Path.dot ∉ base)
    (hlength : i83 + base.length < 11) :
    name83 (base ++ Path.dot :: ext) i83 acc = name83 ext 8 (name83 base i83 acc) := by
  induction base generalizing i83 acc with
  | nil =>
    have hlt : i83 < 11 := hlength
    rw [List.nil_append, name83, name83, dif_pos hlt, if_pos rfl]
  | cons ch base ih =>
    obtain ⟨hch, h⟩ := not_or.mp (mt List.mem_cons.mpr h)
    rw [List.length_cons] at hlength
    rw [List.cons_append, name83, name83, dif_pos (by omega), dif_pos (by omega), if_neg (Ne.symm hch),
      if_neg (Ne.symm hch), ih h (by omega)]

/-- A name of at most 8 characters, alone or with a dot and at most 3 characters behind it. -/
structure Name83 (name base ext : Path) : Prop where
  split : name = base ∧ ext = [] ∨ name = base ++ Path.dot :: ext
  base_dot : Path.dot ∉ base
  ext_dot : Path.dot ∉ ext
  base_length : base.length ≤ 8
  ext_length : ext.length ≤ 3

/-- What is before and behind the last of a character. -/
theorem split_last {ch : UInt8} {front back : Path} (h : ch ∉ back) :
    ((front ++ ch :: back).reverse.dropWhile (· ≠ ch)).tail.reverse = front ∧
      ((front ++ ch :: back).reverse.takeWhile (· ≠ ch)).reverse = back := by
  have hall : ∀ x ∈ back.reverse, decide (x ≠ ch) = true := by
    intro x hx
    exact decide_eq_true (ne_of_mem_of_not_mem (List.mem_reverse.mp hx) h)
  have hreverse : (front ++ ch :: back).reverse = back.reverse ++ ch :: front.reverse := by simp
  rw [hreverse, List.dropWhile_append_of_pos hall, List.takeWhile_append_of_pos hall,
    List.dropWhile_cons_of_neg (by simp), List.takeWhile_cons_of_neg (by simp), List.append_nil]
  simp only [List.tail_cons, List.reverse_reverse, and_self]

theorem storedName_getElem {name base ext : Path} (h : Name83 name base ext) {j : Nat} (hj : j < 11) :
    getElem (storedName name) j hj = toupper (if j < 8 then base.getD j 0x20 else ext.getD (j - 8) 0x20) := by
  rw [storedName, SetFileName]
  simp only [Vector.getElem_ofFn]
  obtain ⟨rfl, rfl⟩ | rfl := h.split
  · rw [if_neg h.base_dot, if_neg h.base_dot]
  · obtain ⟨hfront, hback⟩ := @split_last Path.dot base ext h.ext_dot
    have hmem : Path.dot ∈ base ++ Path.dot :: ext := List.mem_append_right _ List.mem_cons_self
    rw [if_pos hmem, if_pos hmem, hfront, hback]

/-- On such names `SetFileName` and `NameIsEqual` agree. -/
theorem Name83.stored {name base ext : Path} (h : Name83 name base ext) :
    storedName name = name83 name 0 (.replicate 11 0x20) := by
  have hbase := h.base_length
  have hext := h.ext_length
  -- the part of the base, with blanks behind it
  have hfirst : ∀ j (hj : j < 11), getElem (name83 base 0 (.replicate 11 0x20)) j hj = toupper
      (base.getD j 0x20) := by
    intro j hj
    rw [name83_getElem_of_notMem h.base_dot (by omega)]
    by_cases hlt : j < base.length
    · rw [if_pos (by omega)]
      rfl
    · rw [if_neg (by omega), Vector.getElem_replicate, List.getD_eq_default _ _ (by omega)]
      rfl
  apply Vector.ext
  intro j hj
  rw [storedName_getElem h hj]
  obtain ⟨rfl, rfl⟩ | rfl := h.split
  · rw [hfirst j hj]
    split
    · rfl
    · rw [List.getD_eq_default name _ (by omega)]
      rfl
  · rw [name83_append h.base_dot (by omega), name83_getElem_of_notMem h.ext_dot (by omega)]
    by_cases hlow : j < 8
    · rw [if_pos hlow, if_neg (by omega), hfirst j hj]
    · rw [if_neg hlow]
      by_cases hlt : j < 8 + ext.length
      · rw [if_pos (by omega)]
      · rw [if_neg (by omega), hfirst j hj, List.getD_eq_default _ _ (by omega),
          List.getD_eq_default _ _ (by omega)]

namespace Volume

variable {vol vol' : Volume} {clusters dir parent fuel k : Nat} {r x : EntryRef} {name elem path prefixPath : Path}
  {after : Bool}

/-! ## The two parts of a path -/

theorem splitPath_of_notMem (h : Path.slash ∉ path) : splitPath path = ([], path) := by
  have hall : ∀ ch ∈ path.reverse, decide (ch ≠ Path.slash) = true := by
    intro ch hch
    exact decide_eq_true (ne_of_mem_of_not_mem (List.mem_reverse.mp hch) h)
  rw [splitPath, List.dropWhile_eq_nil_iff.mpr hall, List.takeWhile_eq_self_iff.mpr hall,
    List.reverse_reverse]
  rfl

theorem splitPath_append (h : Path.slash ∉ name) :
    splitPath (prefixPath ++ Path.slash :: name) = (prefixPath, name) := by
  obtain ⟨hfront, hback⟩ := @split_last Path.slash prefixPath name h
  rw [splitPath, hfront, hback]

/-- A path is a name, or a path, a slash and a name. -/
theorem name_cases (path : Path) : Path.slash ∉ path ∨
    ∃ prefixPath name, path = prefixPath ++ Path.slash :: name ∧ Path.slash ∉ name := by
  by_cases h : Path.slash ∈ path
  · obtain ⟨front, back, heq, hnot⟩ := List.eq_append_cons_of_mem (List.mem_reverse.mpr h)
    refine Or.inr ⟨back.reverse, front.reverse, ?_, mt List.mem_reverse.mp hnot⟩
    rw [← List.reverse_reverse path, heq]
    simp
  · exact Or.inl h

/-! ## From the directory to the file -/

/-- `FindFile` with a path of one element. -/
theorem findFile_single (h : Path.slash ∉ name) (hrel : relative path = name) :
    vol.findFile (fuel + 1) path dir =
    (vol.searchDirectory name (vol.fatWords + 1) (vol.searched path dir)).map fun found => (found,
    false) := by
  obtain ⟨helem, hrest, hafter⟩ := element_eq hrel h
  rw [findFile_succ, helem, hrest, hafter]
  cases vol.searchDirectory name (vol.fatWords + 1) (vol.searched path dir) with
  | none => rfl
  | some found =>
    cases found with
    | none => rfl
    | some r => exact if_neg fun hgo => hgo.2 rfl

theorem relative_append (hne : prefixPath ≠ []) :
    relative (prefixPath ++ Path.slash :: name) = relative prefixPath ++ Path.slash :: name := by
  cases prefixPath with
  | nil => exact absurd rfl hne
  | cons ch prefixPath =>
    rw [relative, relative]
    change (if some ch = some Path.slash then _ else _) = (if some ch = some Path.slash then _ else _) ++ _
    split <;> rfl

theorem searched_append (hne : prefixPath ≠ []) :
    vol.searched (prefixPath ++ Path.slash :: name) dir = vol.searched prefixPath dir := by
  cases prefixPath with
  | nil => exact absurd rfl hne
  | cons ch prefixPath => rfl

/-- Where `FindFile` looks for the last element: in the directory that it found for what is before it, or in
the root directory if that ends with a slash. -/
def lastSearched (vol : Volume) (after : Bool) (r : EntryRef) : Nat :=
  if after then vol.rootCluster else vol.directoryOf (vol.entry r).firstCluster

/-- `FindFile` finds the directory, and then the name in it. -/
theorem findFile_join (hne : prefixPath ≠ []) (hname : Path.slash ∉ name) (hname' : name ≠ [])
    (hfuel : fuel + 1 ≤ k) (h : vol.findFile fuel prefixPath dir = some (some r, after)) :
    vol.findFile k (prefixPath ++ Path.slash :: name) dir =
      if (vol.entry r).attr = kDirectory then
        (vol.searchDirectory name (vol.fatWords + 1) (vol.lastSearched after r)).map fun found =>
        (found, false)
      else some (some r, true) := by
  induction fuel generalizing prefixPath dir k with
  | zero => cases h
  | succ fuel ih =>
    obtain ⟨k, rfl⟩ : ∃ j, k = j + 2 := ⟨k - 2, by omega⟩
    have hhead : name.head? ≠ some Path.slash := fun hhead => hname (List.mem_of_head? hhead)
    obtain ⟨x, hx⟩ := (findFile_found h).2 _ first_mem_levels
    rw [findFile_hit hx] at h
    have hrel := @relative_append name prefixPath hne
    -- the long path begins with the same element
    have hlong : ∀ {tail}, relative (prefixPath ++ Path.slash :: name) =
        element prefixPath ++ Path.slash :: tail →
        Path.slash ∉ element prefixPath → vol.findFile (k + 2) (prefixPath ++ Path.slash :: name) dir =
          if (vol.entry x).attr = kDirectory ∧ ¬tail = [] then vol.findFile (k + 1) tail
          (vol.entry x).firstCluster
          else some (some x, true) := by
      intro tail hrel hslash
      obtain ⟨helem', hrest', hafter'⟩ := element_append hrel hslash
      rw [← helem', ← @searched_append vol dir name prefixPath hne] at hx
      rw [findFile_hit hx, hrest', hafter']
    obtain ⟨heq, hslash, hrest, hafter⟩ | ⟨heq, hslash, hafter⟩ := level_cases prefixPath
    · rw [heq] at hrel
      rw [hrest, hafter, if_neg fun hgo => hgo.2 rfl] at h
      cases h
      rw [hlong hrel hslash, lastSearched, if_neg Bool.false_ne_true]
      by_cases hattr : (vol.entry r).attr = kDirectory
      · rw [if_pos ⟨hattr, hname'⟩, if_pos hattr, findFile_single hname (relative_of_ne hhead),
          searched_of_relative hhead]
      · rw [if_neg fun hgo => hattr hgo.1, if_neg hattr]
    · rw [heq, List.append_assoc, List.cons_append] at hrel
      rw [hafter] at h
      rw [hlong hrel hslash]
      have hne' : ¬rest prefixPath ++ Path.slash :: name = [] := by simp
      by_cases hattr : (vol.entry x).attr = kDirectory
      · rw [if_pos ⟨hattr, hne'⟩]
        by_cases hnil : rest prefixPath = []
        · -- the slash that ends the directory's path is the first character of the rest
          rw [if_neg fun hgo => hgo.2 hnil] at h
          cases h
          rw [if_pos hattr, hnil, List.nil_append, findFile_single hname relative_slash]
          rfl
        · rw [if_pos ⟨hattr, hnil⟩] at h
          exact ih hnil (by omega) h
      · rw [if_neg fun hgo => hattr hgo.1] at h ⊢
        cases h
        rw [if_neg hattr]

/-- The directory in which `CreateFile` makes the file. -/
theorem parentCluster_cases (h : vol.parentCluster path = some (.ok parent)) :
    (parent = vol.rootCluster ∧ splitPath path = ([], relative path) ∧ Path.slash ∉ relative path) ∨
      ∃ prefixPath name r after, path = prefixPath ++ Path.slash :: name ∧
      splitPath path = (prefixPath, name) ∧
        prefixPath ≠ [] ∧ Path.slash ∉ name ∧ name ≠ [] ∧
        vol.findFile (prefixPath.length + 1) prefixPath 0 = some (some r, after) ∧
        (vol.entry r).firstCluster = parent := by
  rw [parentCluster] at h
  obtain hslash | ⟨prefixPath, name, rfl, hname⟩ := name_cases path
  · rw [if_neg hslash] at h
    cases h
    have hhead : path.head? ≠ some Path.slash := fun hhead => hslash (List.mem_of_head? hhead)
    rw [relative_of_ne hhead]
    exact Or.inl ⟨rfl, splitPath_of_notMem hslash, hslash⟩
  · have hsplit := @splitPath_append name prefixPath hname
    rw [if_pos (List.mem_append_right _ List.mem_cons_self), hsplit] at h
    dsimp only at h
    by_cases hempty : name = []
    · rw [if_pos hempty] at h
      cases h
    rw [if_neg hempty] at h
    by_cases hbegin : prefixPath = []
    · subst hbegin
      rw [if_neg fun hne => hne rfl] at h
      cases h
      exact Or.inl ⟨rfl, hsplit, hname⟩
    · rw [if_pos hbegin] at h
      obtain ⟨⟨found, after⟩, hfind, h⟩ := Option.bind_eq_some_iff.mp h
      cases found with
      | none => cases h
      | some r =>
        cases h
        exact Or.inr ⟨prefixPath, name, r, after, rfl, hsplit, hbegin, hname, hempty, hfind, rfl⟩

/-! ## The created file -/

/-- `FindFile` returns the entry, and no other entry of its directory has the same name. -/
def FoundAgain (vol : Volume) (clusters : Nat) (path : Path) (parent : Nat) (r : EntryRef) : Prop :=
  (∃ after, vol.findFile (path.length + 1) path 0 = some (some r, after)) ∧
    ∀ cs, vol.FileChain clusters parent cs → ∀ x ∈ vol.visible (vol.slots cs),
      (vol.entry x).name = (vol.entry r).name → x = r

theorem lookup_name83 {ss : List EntryRef}
    (h : name83 name 0 (.replicate 11 0x20) = name83 elem 0 (.replicate 11 0x20)) :
    vol.lookup ss name = vol.lookup ss elem := by
  rw [lookup, lookup]
  apply List.find?_congr
  intro x _
  apply decide_eq_decide.mpr
  rw [NameIsEqual, NameIsEqual, h]

section Core

variable (tree : vol.DirectoryTree clusters) {cs' : List Nat} {pre post : List EntryRef}
  (H : Inserts vol vol' clusters parent (tree.chain parent) cs' pre post r name) (hzero : 0 ∉ name)
include H hzero

/-- Every entry that was found under the stored name is beside the new one. -/
theorem visible_found (helem : elem.head? ≠ some kDeleted)
    (hfound : vol.lookup (vol.slots (tree.chain parent)) elem = some x) :
    x ∈ vol'.visible (vol'.slots cs') ∧ x ≠ r ∧ vol'.entry x = vol.entry x := by
  have hmem := mem_of_mem_visible (mem_of_lookup hfound)
  have hx := H.not_used_ne tree hmem (used_of_lookup helem hfound)
  refine ⟨?_, hx, H.kept x hmem hx⟩
  rw [H.visible_after hzero]
  rw [H.lookup_before] at hfound
  cases hpre : pre.find? fun x => NameIsEqual (vol.entry x) elem with
  | some y =>
    rw [hpre, Option.some_or] at hfound
    cases hfound
    exact List.mem_append_left _ (List.mem_of_find?_eq_some hpre)
  | none =>
    rw [hpre, Option.none_or] at hfound
    split at hfound
    · cases hfound
    · split at hfound
      · cases hfound
        exact absurd rfl hx
      · exact List.mem_append_right _ (List.mem_cons_of_mem _ (mem_of_lookup hfound))

/-- The file is alone with its name if no entry was found under it. -/
theorem alone_of_lookup (hstored : storedName name = name83 name 0 (.replicate 11 0x20))
    (hbefore : vol.lookup (vol.slots (tree.chain parent)) name = none)
    (hbehind : vol.lookup (vol.behind (vol.slots (tree.chain parent))) name = none) :
    ∀ x ∈ vol'.visible (vol'.slots cs'), (vol'.entry x).name = (vol'.entry r).name → x = r := by
  intro x hx hname
  rw [H.named, hstored] at hname
  rw [H.visible_after hzero] at hx
  rw [H.lookup_before] at hbefore
  have hpre := (Option.or_eq_none_iff.mp hbefore).1
  obtain hx | hx := List.mem_append.mp hx
  · rw [H.kept_pre hx] at hname
    exact absurd (decide_eq_true hname) (List.find?_eq_none.mp hpre x hx)
  · obtain rfl | hx := List.mem_cons.mp hx
    · rfl
    · rw [(H.kept_behind hx).2] at hname
      exact absurd (decide_eq_true hname) (List.find?_eq_none.mp hbehind x hx)

variable {last : Nat} {elems : List Path} (hparent : parent ∈ tree.dirs)
  (hbefore : vol.searchDirectory name (vol.fatWords + 1) last = some none)
  (helems : ∀ elem ∈ elems, elem.head? ≠ some kDeleted ∧
    ∃ x, vol.lookup (vol.slots (tree.chain parent)) elem = some x)
  (hfind : (∀ elem ∈ elems, storedName name ≠ name83 elem 0 (.replicate 11 0x20)) →
    vol'.findFile (path.length + 1) path 0 =
      (vol'.searchDirectory name (vol'.fatWords + 1) last).map fun found => (found, false))
include hparent hbefore helems hfind

/-- The file is found again if its path leads through entries of other names to its directory. -/
theorem foundAgain_of_stored (hstored : storedName name = name83 name 0 (.replicate 11 0x20))
    (hbehind : vol.lookup (vol.behind (vol.slots (tree.chain parent))) name = none) (hsame : last = parent) :
    FoundAgain vol' clusters path parent r := by
  subst hsame
  rw [tree.search tree.wf hparent, Option.some_inj] at hbefore
  constructor
  · refine ⟨false, ?_⟩
    rw [hfind, H.search, H.lookup_new hzero hbefore hstored]
    · rfl
    · intro elem helem hequal
      obtain ⟨-, x, hx⟩ := helems elem helem
      rw [← lookup_name83 (hstored.symm.trans hequal), hbefore] at hx
      cases hx
  · intro cs hcs
    rw [hcs.unique H.chain]
    exact alone_of_lookup tree H hzero hstored hbefore hbehind

/-- And only then. -/
theorem stored_of_foundAgain (hlast : last ∈ tree.dirs) (h : FoundAgain vol' clusters path parent r) :
    storedName name = name83 name 0 (.replicate 11 0x20) ∧
      vol.lookup (vol.behind (vol.slots (tree.chain parent))) name = none ∧ last = parent := by
  obtain ⟨⟨after, hagain⟩, hunique⟩ := h
  have halone := hunique _ H.chain
  rw [hfind] at hagain
  · obtain ⟨found, hsearch, hpair⟩ := Option.map_eq_some_iff.mp hagain
    cases hpair
    have hsame : last = parent := by
      by_contra hne
      rw [H.search_other tree hparent hlast hne, hbefore] at hsearch
      cases hsearch
    subst hsame
    rw [H.search, Option.some_inj] at hsearch
    have hstored : storedName name = name83 name 0 (.replicate 11 0x20) :=
      H.nameIsEqual_iff.mp (nameIsEqual_of_lookup hsearch)
    refine ⟨hstored, ?_, rfl⟩
    by_contra hbehind
    obtain ⟨y, hy⟩ := Option.ne_none_iff_exists'.mp hbehind
    obtain ⟨hne, hkept⟩ := H.kept_behind (mem_of_lookup hy)
    apply hne
    apply halone y
    · rw [H.visible_after hzero]
      exact List.mem_append_right _ (List.mem_cons_of_mem _ (mem_of_lookup hy))
    · rw [H.named, hstored, hkept]
      exact nameIsEqual_of_lookup hy
  · intro elem helem hequal
    obtain ⟨hdeleted, x, hx⟩ := helems elem helem
    obtain ⟨hvisible, hne, hkept⟩ := visible_found tree H hzero hdeleted hx
    apply hne
    apply halone x hvisible
    rw [H.named, hequal, hkept]
    exact nameIsEqual_of_lookup hx

end Core

/-- `FindFile` gets from the path of the directory to the directory: no slash follows its last element, or
it is the root directory. -/
def LeadsTo (vol : Volume) (path : Path) (parent : Nat) : Prop :=
  parent = vol.rootCluster ∨
    ∃ r, vol.findFile ((splitPath path).1.length + 1) (splitPath path).1 0 = some (some r, false)

theorem createFile_parent {err : Error} (h : vol.createFile path = some (⟨some r, err⟩, vol')) :
    ∃ parent, vol.parentCluster path = some (.ok parent) := by
  obtain ⟨hnone, -⟩ | ⟨parent, hparent, -⟩ := createFile_cases h
  · cases hnone
  · exact ⟨parent, hparent⟩

/-- The directory of a path that leads to nothing is a directory of the tree, and `FindFile` looks for the
name in it or in the root directory. -/
theorem lastSearched_of_not_found (tree : vol.DirectoryTree clusters) (hne : prefixPath ≠ [])
    (hlive : ∀ elem ∈ components prefixPath, elem.head? ≠ some kDeleted) (hname : Path.slash ∉ name)
    (hname' : name ≠ [])
    (hfind : vol.findFile (prefixPath.length + 1) prefixPath 0 = some (some r, after))
    (hfuel : prefixPath.length + 1 < fuel) {flag : Bool}
    (hbefore : vol.findFile fuel (prefixPath ++ Path.slash :: name) 0 = some (none, flag)) :
    (vol.entry r).attr = kDirectory ∧ (vol.entry r).firstCluster ∈ tree.dirs ∧
      vol.searchDirectory name (vol.fatWords + 1) (vol.lastSearched after r) = some none := by
  rw [findFile_join hne hname hname' hfuel hfind] at hbefore
  by_cases hattr : (vol.entry r).attr = kDirectory
  · rw [if_pos hattr] at hbefore
    obtain ⟨found, hsearch, hpair⟩ := Option.map_eq_some_iff.mp hbefore
    cases hpair
    obtain ⟨⟨lv, hlv, hfound⟩, -⟩ := findFile_found hfind
    obtain ⟨hmem, helem⟩ := tree.levels_mem tree.wf hlive (Or.inl rfl) hlv
    rw [tree.search tree.wf hmem, Option.some_inj] at hfound
    exact ⟨hattr, tree.found_mem hmem helem hfound hattr, hsearch⟩
  · rw [if_neg hattr] at hbefore
    cases hbefore

/-- The elements of a path for which `FindFile` searches the directory. -/
def searchedFor (vol : Volume) (dir : Nat) (path : Path) : List Path :=
  ((vol.levels (path.length + 1) path 0).filter (·.1 = dir)).map Prod.snd

theorem mem_searchedFor (h : elem ∈ vol.searchedFor dir path) :
    (dir, elem) ∈ vol.levels (path.length + 1) path 0 := by
  obtain ⟨lv, hlv, rfl⟩ := List.mem_map.mp h
  obtain ⟨hlv, hdir⟩ := List.mem_filter.mp hlv
  rw [← of_decide_eq_true hdir]
  exact hlv

/-- On the way to the directory of a new entry `FindFile` meets the same entries as before, if it does not
look for one of the new name. -/
theorem findFile_prefix (tree : vol.DirectoryTree clusters) {cs' : List Nat} {pre post : List EntryRef}
    (H : Inserts vol vol' clusters parent (tree.chain parent) cs' pre post r name) (hzero : 0 ∉ name)
    (hparent : parent ∈ tree.dirs) (hlive : ∀ elem ∈ components prefixPath, elem.head? ≠ some kDeleted)
    (hfind : vol.findFile (prefixPath.length + 1) prefixPath 0 = some (some x, after))
    (hnew : ∀ elem ∈ vol.searchedFor parent prefixPath,
    storedName name ≠ name83 elem 0 (.replicate 11 0x20)) :
    vol'.findFile (prefixPath.length + 1) prefixPath 0 = some (some x, after) ∧
    vol'.entry x = vol.entry x := by
  obtain ⟨⟨last, hlast, hx⟩, hfound⟩ := findFile_found hfind
  have hsame : ∀ lv ∈ vol.levels (prefixPath.length + 1) prefixPath 0, ∀ x,
      vol.searchDirectory lv.2 (vol.fatWords + 1) lv.1 = some (some x) →
        vol'.searchDirectory lv.2 (vol'.fatWords + 1) lv.1 = some (some x) ∧ vol'.entry x = vol.entry x := by
    intro lv hlv x hx
    obtain ⟨hmem, helem⟩ := tree.levels_mem tree.wf hlive (Or.inl rfl) hlv
    refine H.search_level tree hparent hzero hmem helem (fun hdir => hnew lv.2 ?_) hx
    exact List.mem_map.mpr ⟨lv, List.mem_filter.mpr ⟨hlv, decide_eq_true hdir⟩, rfl⟩
  refine ⟨(findFile_congr H.rootCluster fun lv hlv => ?_).trans hfind, (hsame last hlast x hx).2⟩
  obtain ⟨y, hy⟩ := hfound lv hlv
  refine ⟨(hsame lv hlv y hy).1.trans hy.symm, fun z hz => (hsame lv hlv z hz).2⟩

/-- A created file is found again, and is the only one of its name, if and only if `SetFileName` stores the
name that `NameIsEqual` compares with, no entry behind the end mark has it, and the path leads to the
directory. -/
theorem createFile_foundAgain_iff (tree : vol.DirectoryTree clusters) (hpath : 0 ∉ path)
    (hlive : ∀ elem ∈ components (splitPath path).1, elem.head? ≠ some kDeleted)
    (hbefore : vol.findFile (path.length + 1) path 0 = some (none, after))
    (hcreate : vol.createFile path = some (⟨some r, .kSuccess⟩, vol')) :
    ∃ parent, vol.parentCluster path = some (.ok parent) ∧ parent ∈ tree.dirs ∧
      (FoundAgain vol' clusters path parent r ↔
        storedName (splitPath path).2 = name83 (splitPath path).2 0 (.replicate 11 0x20) ∧
          vol.lookup (vol.behind (vol.slots (tree.chain parent))) (splitPath path).2 = none ∧
          LeadsTo vol path parent) := by
  obtain ⟨parent, hparent⟩ := createFile_parent hcreate
  obtain ⟨rfl, hsplit, hslash⟩ | ⟨prefixPath, name, d, flag, rfl, hsplit, hne, hname, hname', hfind, rfl⟩ :=
    parentCluster_cases hparent
  · have hroot := tree.root_mem
    obtain ⟨cs', pre, post, H⟩ := createFile_inserts tree.wf tree.words tree.entries
        (tree.isChain _ hroot) hparent hcreate
    have hzero : 0 ∉ relative path := fun hmem => hpath ((relative_suffix path).subset hmem)
    have hsearched : vol.searched path 0 = vol.rootCluster := if_pos (Or.inr rfl)
    rw [findFile_single hslash rfl, hsearched] at hbefore
    obtain ⟨found, hsearch, hpair⟩ := Option.map_eq_some_iff.mp hbefore
    cases hpair
    refine ⟨_, hparent, hroot, ?_⟩
    rw [hsplit] at H ⊢
    have hfind : vol'.findFile (path.length + 1) path 0 = (vol'.searchDirectory (relative path)
        (vol'.fatWords + 1)
        vol.rootCluster).map fun found => (found, false) := by
      have hsearched' : vol'.searched path 0 = vol.rootCluster := (if_pos (Or.inr rfl)).trans H.rootCluster
      rw [findFile_single hslash rfl, hsearched']
    have hnone : ∀ elem ∈ ([] : List Path), elem.head? ≠ some kDeleted ∧
        ∃ x, vol.lookup (vol.slots (tree.chain vol.rootCluster)) elem = some x := List.forall_mem_nil _
    constructor
    · intro h
      obtain ⟨hstored, hbehind, -⟩ := stored_of_foundAgain tree H hzero hroot hsearch hnone
          (fun _ => hfind) hroot h
      exact ⟨hstored, hbehind, Or.inl rfl⟩
    · rintro ⟨hstored, hbehind, -⟩
      exact foundAgain_of_stored tree H hzero hroot hsearch hnone (fun _ => hfind) hstored hbehind rfl
  · rw [hsplit] at hlive
    have hlength : prefixPath.length + 1 < (prefixPath ++ Path.slash :: name).length + 1 := by simp
    obtain ⟨hattr, hmem, hsearch⟩ :=
        lastSearched_of_not_found tree hne hlive hname hname' hfind hlength hbefore
    obtain ⟨cs', pre, post, H⟩ := createFile_inserts tree.wf tree.words tree.entries
        (tree.isChain _ hmem) hparent hcreate
    have hzero : 0 ∉ name := fun h => hpath (List.mem_append_right _ (List.mem_cons_of_mem _ h))
    refine ⟨_, hparent, hmem, ?_⟩
    rw [LeadsTo, hsplit] at *
    have hdirectory : vol.directoryOf (vol.entry d).firstCluster = (vol.entry d).firstCluster :=
      if_neg (tree.ne_zero hmem)
    have hlast : vol.lastSearched flag d ∈ tree.dirs := by
      rw [lastSearched, hdirectory]
      split
      · exact tree.root_mem
      · exact hmem
    have helems : ∀ elem ∈ vol.searchedFor (vol.entry d).firstCluster prefixPath, elem.head? ≠ some kDeleted ∧
        ∃ x, vol.lookup (vol.slots (tree.chain (vol.entry d).firstCluster)) elem = some x := by
      intro elem helem
      have hlevel := mem_searchedFor helem
      obtain ⟨x, hx⟩ := (findFile_found hfind).2 _ hlevel
      rw [tree.search tree.wf hmem, Option.some_inj] at hx
      exact ⟨(tree.levels_mem tree.wf hlive (Or.inl rfl) hlevel).2, x, hx⟩
    have hagain : (∀ elem ∈ vol.searchedFor (vol.entry d).firstCluster prefixPath,
        storedName name ≠ name83 elem 0 (.replicate 11 0x20)) →
        vol'.findFile ((prefixPath ++ Path.slash :: name).length + 1) (prefixPath ++ Path.slash :: name) 0 =
          (vol'.searchDirectory name (vol'.fatWords + 1) (vol.lastSearched flag d)).map fun found =>
          (found, false) := by
      intro hnew
      obtain ⟨hbegin, hentry⟩ := findFile_prefix tree H hzero hmem hlive hfind hnew
      have hsame : vol'.lastSearched flag d = vol.lastSearched flag d := by
        rw [lastSearched, lastSearched, directoryOf, directoryOf, H.rootCluster, hentry]
      rw [findFile_join hne hname hname' hlength hbegin, hentry, if_pos hattr, hsame]
    -- without a slash behind the directory its cluster is searched, otherwise the root directory
    have hleads : vol.lastSearched flag d = (vol.entry d).firstCluster ↔
        ((vol.entry d).firstCluster = vol.rootCluster ∨
        ∃ r, vol.findFile (prefixPath.length + 1) prefixPath 0 = some (some r, false)) := by
      rw [lastSearched, hdirectory, hfind]
      cases flag with
      | false => simp
      | true => simp [eq_comm]
    rw [← hleads]
    constructor
    · exact stored_of_foundAgain tree H hzero hmem hsearch helems hagain hlast
    · rintro ⟨hstored, hbehind, hsame⟩
      exact foundAgain_of_stored tree H hzero hmem hsearch helems hagain hstored hbehind hsame

/-- The tree of a volume whose root directory has no directories. -/
def rootOnly {cs : List Nat} (hv : vol.WellFormed clusters) (hwords : clusters + 2 = vol.fatWords)
    (hentries : 0 < vol.entriesPerCluster) (hchain : vol.FileChain clusters vol.rootCluster cs)
    (hattr : ∀ r ∈ vol.slots cs, (vol.entry r).attr ≠ kDirectory) : DirectoryTree vol clusters where
  dirs := {vol.rootCluster}
  chain := fun _ => cs
  root_mem := rfl
  isChain := by
    rintro dir rfl
    exact hchain
  descends := by
    rintro dir rfl r hr hdirectory _
    exact absurd hdirectory (hattr r (mem_of_mem_visible hr))
  wf := hv
  words := hwords
  entries := hentries
  separate := by
    rintro dir rfl dir' rfl hne
    exact absurd rfl hne
  dots := by
    rintro dir rfl r hr hdirectory _ _
    exact absurd hdirectory (hattr r (mem_of_mem_visible hr))

theorem emptyVolume_words : 126 + 2 = FileDescriptor.emptyVolume.fatWords := rfl

theorem emptyVolume_entries : 0 < FileDescriptor.emptyVolume.entriesPerCluster := by decide

theorem emptyVolume_root : FileDescriptor.emptyVolume.FileChain 126 2 [2] := ⟨.last (by decide), by decide⟩

theorem emptyVolume_files : ∀ r ∈ FileDescriptor.emptyVolume.slots [2],
    (FileDescriptor.emptyVolume.entry r).attr ≠ kDirectory := by decide

def emptyTree : DirectoryTree FileDescriptor.emptyVolume 126 :=
  rootOnly FileDescriptor.emptyVolume_wellFormed emptyVolume_words emptyVolume_entries emptyVolume_root
    emptyVolume_files

/-- `a.b` in the empty root directory. -/
theorem createFile_foundAgain_emptyVolume :
    FileDescriptor.emptyVolume.findFile 4 [0x61, 0x2e, 0x62] 0 = some (none, false) ∧
      ∃ vol', FileDescriptor.emptyVolume.createFile [0x61, 0x2e, 0x62] = some
      (⟨some ⟨2, 0⟩, .kSuccess⟩, vol') ∧
        FoundAgain vol' 126 [0x61, 0x2e, 0x62] 2 ⟨2, 0⟩ := by
  have hbefore : FileDescriptor.emptyVolume.findFile 4 [0x61, 0x2e, 0x62] 0 = some (none, false) := by decide
  refine ⟨hbefore, _, rfl, ?_⟩
  obtain ⟨parent, hparent, -, hiff⟩ := createFile_foundAgain_iff emptyTree (by decide) (by decide) hbefore rfl
  cases hparent
  exact hiff.mpr ⟨by decide, by decide, Or.inl rfl⟩

/-- `abcdefghi` is stored as `ABCDEFGH`. -/
theorem not_foundAgain_nineCharacters :
    let path : Path := [0x61, 0x62, 0x63, 0x64, 0x65, 0x66, 0x67, 0x68, 0x69]
    FileDescriptor.emptyVolume.findFile 10 path 0 = some (none, false) ∧
      ∃ vol', FileDescriptor.emptyVolume.createFile path = some (⟨some ⟨2, 0⟩, .kSuccess⟩, vol') ∧
        vol'.findFile 10 path 0 = some (none, false) ∧ ¬FoundAgain vol' 126 path 2 ⟨2, 0⟩ := by
  intro path
  have hafter : (FileDescriptor.emptyVolume.named ⟨2, 0⟩ path).findFile 10 path 0 = some
      (none, false) := by decide
  refine ⟨by decide, _, rfl, hafter, ?_⟩
  rintro ⟨⟨after, hfound⟩, -⟩
  cases hafter.symm.trans hfound

end Volume

end MikanOS.Fat
