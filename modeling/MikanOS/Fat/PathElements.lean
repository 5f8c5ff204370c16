import MikanOS.Fat.Shelves

/-! # The elements of a path

`NextPathElement` copies one element after the other into a buffer of 13 bytes. Every piece of a path between
two slashes is such an element, if the directories that `FindFile` meets let it go on that far. -/

namespace MikanOS.Fat

/-- What `strcpy`, or `strncpy` and the zero behind it, store to `path_elem`. -/
def storedElement (elem : Path) : Path := elem ++ [0]

/-! ## Slashes -/

section Slashes

variable {path elem tail piece : Path}

theorem NextPathElement_of_notMem (h : Path.slash ∉ elem) : NextPathElement elem = (none, false, elem) :=
    if_neg h

theorem NextPathElement_append (h : Path.slash ∉ elem) :
    NextPathElement (elem ++ Path.slash :: tail) = (some tail, true, elem) := by
  have hne : ∀ ch ∈ elem, (decide (ch ≠ Path.slash)) = true := by
    intro ch hch
    exact decide_eq_true (ne_of_mem_of_not_mem hch h)
  rw [NextPathElement, if_pos (by simp), List.dropWhile_append_of_pos hne, List.takeWhile_append_of_pos hne]
  simp

/-- A path is one element, or an element, a slash and the path behind it. -/
theorem path_cases (path : Path) :
    Path.slash ∉ path ∨ ∃ elem tail, Path.slash ∉ elem ∧ path = elem ++ Path.slash :: tail := by
  by_cases h : Path.slash ∈ path
  · obtain ⟨elem, tail, heq, hnot⟩ := List.eq_append_cons_of_mem h
    exact Or.inr ⟨elem, tail, hnot, heq⟩
  · exact Or.inl h

theorem splitOn_append (h : Path.slash ∉ elem) :
    (elem ++ Path.slash :: tail).splitOn Path.slash = elem :: tail.splitOn Path.slash := by
  rw [List.splitOn_append_cons_self, List.splitOn_eq_singleton h]
  rfl

theorem relative_slash : relative (Path.slash :: tail) = tail := rfl

theorem relative_of_ne (h : path.head? ≠ some Path.slash) : relative path = path := if_neg h

theorem relative_length_le : (relative path).length ≤ path.length := by
  rw [relative]
  split
  · simp
  · exact Nat.le_refl _

/-- What a level reads of its path: one element, or an element and a path for the next level. -/
theorem level_cases (path : Path) :
    (relative path = element path ∧ Path.slash ∉ element path ∧ rest path = [] ∧ slashAfter path = false) ∨
      (relative path = element path ++ Path.slash :: rest path ∧ Path.slash ∉ element path ∧
        slashAfter path = true) := by
  rw [element, rest, slashAfter]
  obtain h | ⟨elem, tail, h, heq⟩ := path_cases (relative path)
  · rw [NextPathElement_of_notMem h]
    exact Or.inl ⟨rfl, h, rfl, rfl⟩
  · rw [heq, NextPathElement_append h]
    exact Or.inr ⟨rfl, h, rfl⟩

theorem rest_length_lt (h : rest path ≠ []) : (rest path).length < path.length := by
  have hle := @relative_length_le path
  obtain ⟨-, -, hnil, -⟩ | ⟨heq, -, -⟩ := level_cases path
  · exact absurd hnil h
  · rw [heq, List.length_append, List.length_cons] at hle
    omega

/-- The pieces of a path are those of its relative part, and an empty one in front of a slash. -/
theorem mem_splitOn_of_relative (h : piece ∈ (relative path).splitOn Path.slash) :
    piece ∈ path.splitOn Path.slash := by
  by_cases habs : path.head? = some Path.slash
  · obtain ⟨tail, rfl⟩ := List.head?_eq_some_iff.mp habs
    rw [relative_slash] at h
    rw [← List.nil_append (Path.slash :: tail), splitOn_append List.not_mem_nil]
    exact List.mem_cons_of_mem _ h
  · rwa [relative_of_ne habs] at h

theorem mem_relative_splitOn (h : piece ∈ path.splitOn Path.slash) (hne : piece ≠ []) :
    piece ∈ (relative path).splitOn Path.slash := by
  by_cases habs : path.head? = some Path.slash
  · obtain ⟨tail, rfl⟩ := List.head?_eq_some_iff.mp habs
    rw [← List.nil_append (Path.slash :: tail), splitOn_append List.not_mem_nil] at h
    exact (List.mem_cons.mp h).resolve_left hne
  · rwa [relative_of_ne habs]

/-- The element of a level is a piece of its path. -/
theorem element_mem_splitOn (path : Path) : element path ∈ path.splitOn Path.slash := by
  apply mem_splitOn_of_relative
  obtain ⟨heq, hslash, -, -⟩ | ⟨heq, hslash, -⟩ := level_cases path
  · rw [heq, List.splitOn_eq_singleton hslash]
    exact List.mem_singleton_self _
  · rw [heq, splitOn_append hslash]
    exact List.mem_cons_self

/-- The pieces of what a level leaves to the next are pieces of its own path. -/
theorem mem_splitOn_of_rest (hne : rest path ≠ []) (h : piece ∈ (rest path).splitOn Path.slash) :
    piece ∈ path.splitOn Path.slash := by
  apply mem_splitOn_of_relative
  obtain ⟨-, -, hnil, -⟩ | ⟨heq, hslash, -⟩ := level_cases path
  · exact absurd hnil hne
  · rw [heq, splitOn_append hslash]
    exact List.mem_cons_of_mem _ h

/-- A piece that is not empty is the element of the level or a piece of what it leaves. -/
theorem piece_cases (h : piece ∈ path.splitOn Path.slash) (hne : piece ≠ []) :
    piece = element path ∨ (rest path ≠ [] ∧ piece ∈ (rest path).splitOn Path.slash) := by
  have hmem := mem_relative_splitOn h hne
  obtain ⟨heq, hslash, -, -⟩ | ⟨heq, hslash, -⟩ := level_cases path
  · rw [heq, List.splitOn_eq_singleton hslash] at hmem
    exact Or.inl (List.mem_singleton.mp hmem)
  · rw [heq, splitOn_append hslash] at hmem
    obtain rfl | hmem := List.mem_cons.mp hmem
    · exact Or.inl rfl
    · refine Or.inr ⟨?_, hmem⟩
      intro hnil
      rw [hnil, List.splitOn_nil] at hmem
      exact hne (List.mem_singleton.mp hmem)

/-- The pieces consist of characters of the path other than slashes. -/
theorem mem_splitOn (h : piece ∈ path.splitOn Path.slash) : piece ⊆ path ∧ Path.slash ∉ piece := by
  generalize hlen : path.length = n
  induction n using Nat.strong_induction_on generalizing path with
  | _ n ih =>
    subst hlen
    obtain hslash | ⟨elem, tail, hslash, rfl⟩ := path_cases path
    · rw [List.splitOn_eq_singleton hslash] at h
      obtain rfl := List.mem_singleton.mp h
      exact ⟨List.Subset.refl _, hslash⟩
    · rw [splitOn_append hslash] at h
      obtain rfl | h := List.mem_cons.mp h
      · exact ⟨List.subset_append_left _ _, hslash⟩
      · obtain ⟨hsub, hnot⟩ := ih tail.length (by simp only [List.length_append, List.length_cons]; omega) h rfl
        exact ⟨List.subset_append_of_subset_right _ (List.subset_cons_of_subset _ hsub), hnot⟩

end Slashes

namespace Volume

variable {vol : Volume} {names : List Path} {fuel dc : Nat} {path piece : Path} {lv : Nat × Path}

/-! ## The levels -/

/-- Every level copies a piece of the path. -/
theorem element_of_level (h : lv ∈ vol.levels fuel path dc) : lv.2 ∈ path.splitOn Path.slash := by
  induction fuel generalizing path dc with
  | zero => exact absurd h List.not_mem_nil
  | succ fuel ih =>
    rw [levels] at h
    obtain rfl | h := List.mem_cons.mp h
    · exact element_mem_splitOn path
    · split at h
      · split at h
        · rename_i hgo
          exact mem_splitOn_of_rest hgo.2 (ih h)
        · exact absurd h List.not_mem_nil
      · exact absurd h List.not_mem_nil

/-- The only directory of the mirror has a directory entry for each of the names, which leads back to it. -/
def mirror (names : List Path) : Volume := shelves names 1 fun _ => 2

theorem mirror_searched (hdc : dc = 0 ∨ dc = 2) : (mirror names).searched path dc = 2 := by
  rw [searched]
  split
  · rfl
  · rename_i h
    exact hdc.resolve_left fun h0 => h (Or.inr h0)

/-- In the mirror every name is found. -/
theorem mirror_search (hzero : ∀ name ∈ names, 0 ∉ name) (hmem : piece ∈ names) :
    ∃ r, (mirror names).searchDirectory piece ((mirror names).fatWords + 1) 2 = some (some r) := by
  have hwf := @shelves_wellFormed names 1 (fun _ => 2) (List.ne_nil_of_mem hmem) (by decide)
  have hchain := @shelves_chain names 1 2 (fun _ => 2) (by decide)
  obtain ⟨r, -, hr⟩ := @shelves_lookup names piece 1 2 (fun _ => 2) hzero hmem
  exact ⟨r, (searchDirectory_spec hwf hchain (show 1 < 4 by decide)).trans (congrArg some hr)⟩

theorem mirror_firstCluster (r : EntryRef) : ((mirror names).entry r).firstCluster = 2 :=
  shelves_firstCluster (by decide)

/-- The mirror lets `FindFile` go on to every piece. -/
theorem level_of_piece (hzero : ∀ name ∈ names, 0 ∉ name)
    (hnames : ∀ name ∈ path.splitOn Path.slash, name ∈ names) (hdc : dc = 0 ∨ dc = 2)
    (hfuel : path.length < fuel)
    (hmem : piece ∈ path.splitOn Path.slash) (hne : piece ≠ []) :
    ∃ lv ∈ (mirror names).levels fuel path dc, lv.2 = piece := by
  induction fuel generalizing path dc with
  | zero => exact absurd hfuel (Nat.not_lt_zero _)
  | succ fuel ih =>
    obtain ⟨r, hr⟩ := mirror_search hzero (hnames _ (element_mem_splitOn path))
    rw [levels, mirror_searched hdc, hr]
    obtain rfl | ⟨hrest, hmem⟩ := piece_cases hmem hne
    · exact ⟨_, List.mem_cons_self, rfl⟩
    · have hlt := rest_length_lt hrest
      obtain ⟨lv, hlv, heq⟩ := @ih 2 (rest path) (fun name hname => hnames name
          (mem_splitOn_of_rest hrest hname))
        (Or.inr rfl) (by omega) hmem
      refine ⟨lv, List.mem_cons_of_mem _ ?_, heq⟩
      rw [← @mirror_firstCluster names r] at hlv
      exact Eq.mpr (congrArg (lv ∈ ·) (if_pos ⟨rfl, hrest⟩)) hlv

/-- On every volume each level of `FindFile` stores at most 13 bytes, if and only if no piece of the path has
more than 12 characters. -/
theorem storedElement_fits_iff (path : Path) (hpath : 0 ∉ path) :
    (∀ (vol : Volume) (clusters : Nat), vol.WellFormed clusters → ∀ dc fuel, ∀ lv ∈ vol.levels fuel path dc,
      (storedElement lv.2).length ≤ 13) ↔ ∀ piece ∈ path.splitOn Path.slash, piece.length ≤ 12 := by
  constructor
  · intro h piece hpiece
    by_cases hne : piece = []
    · exact hne ▸ Nat.zero_le _
    have hzero : ∀ name ∈ path.splitOn Path.slash, 0 ∉ name := fun name hname =>
      mt ((mem_splitOn hname).1 ·) hpath
    obtain ⟨lv, hlv, rfl⟩ := @level_of_piece _ (path.length + 1) 0 path piece hzero (fun _ h => h)
        (Or.inl rfl)
      (Nat.lt_succ_self _) hpiece hne
    have hle := h _ 1 (shelves_wellFormed (List.splitOn_ne_nil _ _) (by decide)) _ _ lv hlv
    rw [storedElement, List.length_append, List.length_singleton] at hle
    omega
  · intro h vol clusters _ dc fuel lv hlv
    have hle := h _ (element_of_level hlv)
    rw [storedElement, List.length_append, List.length_singleton]
    omega

theorem storedElement_fits_twoPieces : 0 ∉ ([0x61, 0x2f, 0x62] : Path) ∧
    ∀ (vol : Volume) (clusters : Nat), vol.WellFormed clusters → ∀ dc fuel,
      ∀ lv ∈ vol.levels fuel [0x61, 0x2f, 0x62] dc, (storedElement lv.2).length ≤ 13 :=
  ⟨by decide, (storedElement_fits_iff [0x61, 0x2f, 0x62] (by decide)).mpr (by decide)⟩

theorem not_storedElement_fits_thirteen : (mirror [[]]).WellFormed 1 ∧
    ¬∀ lv ∈ (mirror [[]]).levels 1 (.replicate 13 0x61) 0, (storedElement lv.2).length ≤ 13 :=
  ⟨shelves_wellFormed (by decide) (by decide), by decide⟩

end Volume

end MikanOS.Fat
