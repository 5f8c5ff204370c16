import MikanOS.Fat.PathResolution

/-! # Paths that `FindFile` reads otherwise

For a path that is not plain there is a tree on which `FindFile` goes wrong: where it restarts at the root
directory, where it looks for an entry without a name, or where it returns a deleted entry. -/

namespace MikanOS.Fat

open Volume

/-- On every tree `FindFile` returns what the path stands for. -/
def Resolves (path : Path) : Prop :=
  ∀ (vol : Volume) (clusters : Nat), vol.WellFormed clusters → ∀ tree : vol.Tree clusters, ∀ dir,
    dir = 0 ∨ dir ∈ tree.dirs → ∀ fuel, path.length < fuel →
      vol.findFile fuel path dir = some (vol.resolve tree.chain path dir)

/-- `NameIsEqual` compares with a name that is not blank. -/
def Named (name : Path) : Prop := name83 name 0 (.replicate 11 0x20) ≠ .replicate 11 0x20

instance : DecidablePred Named := fun _ => inferInstanceAs (Decidable (¬_))

namespace Volume

variable {names comps : List Path} {path elem tail name : Path} {clusters fuel dir : Nat} {lead : Nat → Nat}
  {trailing found : Bool} {r : EntryRef}

def shelvesTree (hpos : 0 < clusters) (hle : clusters + 2 ≤ 0x0ffffff8)
    (hlead : ∀ c, 2 ≤ c → lead c = 0 ∨ (2 ≤ lead c ∧ lead c < clusters + 2)) :
    (shelves names clusters lead).Tree clusters where
  dirs := {c | 2 ≤ c ∧ c < clusters + 2}
  chain := fun c => [c]
  root_mem := ⟨Nat.le_refl 2, Nat.lt_add_of_pos_left hpos⟩
  isChain := fun _ hdir => shelves_chain hdir
  descends := by
    intro dir hdir r hr _ _
    have hmem := cluster_mem_of_mem_visible hr
    have hlead := hlead r.cluster (List.mem_singleton.mp hmem ▸ hdir.1)
    rw [shelves_firstCluster (by omega)]
    exact hlead

/-! ## The mirror -/

def mirrorTree (names : List Path) : (mirror names).Tree 1 :=
  shelvesTree Nat.one_pos (by decide) fun _ _ => Or.inr (by decide)

/-- On the mirror of its pieces `FindFile` finds something on every path. -/
theorem findFile_mirror (hzero : ∀ name ∈ names, 0 ∉ name)
    (hnames : ∀ name ∈ path.splitOn Path.slash, name ∈ names)
    (hdir : dir = 0 ∨ dir = 2) (hfuel : path.length < fuel) :
    ∃ r after, (mirror names).findFile fuel path dir = some (some r, after) := by
  induction fuel generalizing path dir with
  | zero => exact absurd hfuel (Nat.not_lt_zero _)
  | succ fuel ih =>
    obtain ⟨r, hr⟩ := mirror_search hzero (hnames _ (element_mem_splitOn path))
    rw [← @mirror_searched names dir path hdir] at hr
    rw [findFile_hit hr]
    split
    · rename_i hgo
      have hlt := rest_length_lt hgo.2
      exact ih (fun name hname => hnames name (mem_splitOn_of_rest hgo.2 hname))
        (Or.inr (mirror_firstCluster r))
        (by omega)
    · exact ⟨r, _, rfl⟩

/-- A deleted entry is not on the way to anything. -/
theorem walk_deleted {vol : Volume} {chain : Nat → List Nat} (hattr : ∀ r, (vol.entry r).attr = kDirectory)
    (h : ∃ name ∈ comps, name.head? = some kDeleted) : (vol.walk chain trailing comps dir).1 = none := by
  induction comps generalizing dir with
  | nil => rfl
  | cons name comps ih =>
    rw [walk]
    by_cases hname : name.head? = some kDeleted
    · rw [lookupLive_eq_none hname]
    · obtain ⟨deleted, hmem, hdeleted⟩ := h
      have hmem : deleted ∈ comps := by
        obtain rfl | hmem := List.mem_cons.mp hmem
        · exact absurd hdeleted hname
        · exact hmem
      split
      · rfl
      · rw [if_pos ⟨hattr _, List.ne_nil_of_mem hmem⟩]
        exact ih ⟨deleted, hmem, hdeleted⟩

/-- So every path that resolves has components, and none of them is the name of a deleted entry. -/
theorem resolve_mirror (hpath : 0 ∉ path) (h : Resolves path) :
    ((mirror (path.splitOn Path.slash)).resolve (fun c => [c]) path 0).1 ≠ none := by
  have hzero : ∀ name ∈ path.splitOn Path.slash, 0 ∉ name := fun name hname =>
    mt ((mem_splitOn hname).1 ·) hpath
  obtain ⟨r, after, hfind⟩ := @findFile_mirror _ path (path.length + 1) 0 hzero (fun _ h => h) (Or.inl rfl)
    (Nat.lt_succ_self _)
  have hwf := @shelves_wellFormed _ 1 (fun _ => 2) (List.splitOn_ne_nil Path.slash path) (by decide)
  have hresolve := h _ 1 hwf (mirrorTree _) 0 (Or.inl rfl) _ (Nat.lt_succ_self _)
  have hpair := Option.some_inj.mp (hfind.symm.trans hresolve)
  intro hnone
  exact absurd ((congrArg Prod.fst hpair).trans hnone) (Option.some_ne_none r)

theorem nonempty_of_resolves (hpath : 0 ∉ path) (h : Resolves path) : components path ≠ [] := by
  intro hnil
  apply resolve_mirror hpath h
  rw [resolve, hnil, walk]

theorem live_of_resolves (hpath : 0 ∉ path) (h : Resolves path) :
    ∀ name ∈ components path, name.head? ≠ some kDeleted := by
  intro name hname hdeleted
  exact resolve_mirror hpath h (walk_deleted (fun _ => rfl) ⟨name, hname, hdeleted⟩)

/-! ## The ladder -/

def nextRung (clusters c : Nat) : Nat := if c + 1 < clusters + 2 then c + 1 else 0

/-- Each directory of the ladder leads to the next one. -/
def ladder (names : List Path) (clusters : Nat) : Volume := shelves names clusters (nextRung clusters)

def ladderTree (names : List Path) (hpos : 0 < clusters) (hle : clusters + 2 ≤ 0x0ffffff8) :
    (ladder names clusters).Tree clusters :=
  shelvesTree hpos hle fun c hc => by
    rw [nextRung]
    split
    · exact Or.inr ⟨Nat.le_succ_of_le hc, by assumption⟩
    · exact Or.inl rfl

theorem ladder_firstCluster (hle : clusters + 2 ≤ 0x0ffffff8) (r : EntryRef) :
    ((ladder names clusters).entry r).firstCluster = nextRung clusters r.cluster := by
  apply shelves_firstCluster
  rw [nextRung]
  split <;> omega

theorem ladder_searched_le : (ladder names clusters).searched path dir ≤ max 2 dir := by
  rw [searched]
  split
  · exact Nat.le_max_left _ _
  · exact Nat.le_max_right _ _

end Volume

/-! ## Two slashes in a row -/

section Double

variable {path elem tail : Path}

theorem double_append (h : Path.slash ∉ elem)
    (hdouble : [Path.slash, Path.slash] <:+: elem ++ Path.slash :: tail) :
    tail.head? = some Path.slash ∨ [Path.slash, Path.slash] <:+: tail := by
  induction elem with
  | nil =>
    obtain ⟨suffix, hbegin⟩ | hinside := List.infix_cons_iff.mp hdouble
    · injection hbegin with _ heq
      rw [← heq]
      exact Or.inl rfl
    · exact Or.inr hinside
  | cons ch elem ih =>
    obtain ⟨suffix, hbegin⟩ | hinside := List.infix_cons_iff.mp hdouble
    · injection hbegin with heq _
      exact absurd (heq ▸ List.mem_cons_self) h
    · exact ih (mt (List.mem_cons_of_mem _) h) hinside

/-- The element is empty where the relative part begins with a slash. -/
theorem relative_head_ne (h : element path ≠ []) : (relative path).head? ≠ some Path.slash := by
  intro hhead
  obtain ⟨heq, hslash, -, -⟩ | ⟨heq, hslash, -⟩ := level_cases path
  · rw [heq] at hhead
    exact hslash (List.mem_of_head? hhead)
  · rw [heq, List.head?_append_of_ne_nil _ h] at hhead
    exact hslash (List.mem_of_head? hhead)

/-- Two slashes in a row are behind the first element, or what is behind it begins with a slash. -/
theorem double_cases (h : element path ≠ []) (hdouble : [Path.slash, Path.slash] <:+: path) :
    (rest path).head? = some Path.slash ∨ [Path.slash, Path.slash] <:+: rest path := by
  have hrelative : [Path.slash, Path.slash] <:+: relative path := by
    by_cases habs : path.head? = some Path.slash
    · obtain ⟨tail, rfl⟩ := List.head?_eq_some_iff.mp habs
      obtain ⟨suffix, hbegin⟩ | hinside := List.infix_cons_iff.mp hdouble
      · injection hbegin with _ heq
        have hhead := relative_head_ne h
        rw [relative_slash, ← heq] at hhead
        exact absurd rfl hhead
      · exact hinside
    · rwa [relative_of_ne habs]
  obtain ⟨heq, hslash, -, -⟩ | ⟨heq, hslash, -⟩ := level_cases path
  · rw [heq] at hrelative
    exact absurd (hrelative.subset List.mem_cons_self) hslash
  · rw [heq] at hrelative
    exact double_append hslash hrelative

theorem components_level (h : element path ≠ []) :
    components path = element path :: components (rest path) := by
  rw [← components_relative]
  obtain ⟨heq, hslash, hnil, -⟩ | ⟨heq, hslash, -⟩ := level_cases path
  · rw [heq, hnil, components_of_notMem hslash h]
    rfl
  · rw [heq, components_append hslash h]

end Double

namespace Volume

variable {names comps : List Path} {path : Path} {clusters fuel dir : Nat} {trailing after : Bool} {r : EntryRef}

section Ladder

variable (hpos : 0 < clusters) (hle : clusters + 2 ≤ 0x0ffffff8) (hnames : names ≠ [])
include hpos hle hnames

/-- One level on the ladder: the entry is here and the path ends, or it is further on. -/
theorem findFile_ladder_step (hnamed : ∀ name ∈ names, Named name)
    (hdir : dir = 0 ∨ (2 ≤ dir ∧ dir < clusters + 2))
    (h : (ladder names clusters).findFile (fuel + 1) path dir = some (some r, after)) :
    element path ≠ [] ∧ (r.cluster = (ladder names clusters).searched path dir ∧ rest path = [] ∨
      ∃ dir', (dir' = 0 ∨ (2 ≤ dir' ∧ dir' < clusters + 2)) ∧
      dir' ≤ (ladder names clusters).searched path dir + 1 ∧
        (ladder names clusters).findFile fuel (rest path) dir' = some (some r, after)) := by
  let tree := ladderTree names hpos hle
  have hmem := @Tree.searched_mem _ _ path _ tree hdir
  have hwf := @shelves_wellFormed names clusters (nextRung clusters) hnames hle
  rw [findFile_succ, tree.search hwf hmem, Option.bind_some] at h
  generalize hfound : (ladder names clusters).lookup _ (element path) = found at h
  cases found with
  | none => cases h
  | some hit =>
    have hcluster : hit.cluster = (ladder names clusters).searched path dir :=
      List.mem_singleton.mp (cluster_mem_of_mem_visible (mem_of_lookup hfound))
    constructor
    · intro hempty
      rw [hempty] at hfound
      have hnone := @shelves_lookup_none names [] clusters ((ladder names clusters).searched path dir)
        (nextRung clusters) hnamed
      exact absurd (hnone.symm.trans hfound) (Option.some_ne_none hit).symm
    · change (if _ ∧ _ then _ else _) = _ at h
      split at h
      · have hrange := hmem.1
        refine Or.inr ⟨_, ?_, ?_, h⟩
        · rw [ladder_firstCluster hle, nextRung, hcluster]
          split <;> omega
        · rw [ladder_firstCluster hle, nextRung, hcluster]
          split <;> omega
      · rename_i hstop
        cases h
        refine Or.inl ⟨hcluster, ?_⟩
        by_contra hrest
        exact hstop ⟨rfl, hrest⟩

/-- `FindFile` goes up at most one directory for a component. -/
theorem findFile_ladder_lt (hnamed : ∀ name ∈ names, Named name)
    (hdir : dir = 0 ∨ (2 ≤ dir ∧ dir < clusters + 2))
    (h : (ladder names clusters).findFile fuel path dir = some (some r, after)) :
    r.cluster < (ladder names clusters).searched path dir + (components path).length := by
  induction fuel generalizing path dir with
  | zero => cases h
  | succ fuel ih =>
    obtain ⟨helem, ⟨hcluster, -⟩ | ⟨dir', hdir', hdir'le, hfind⟩⟩ :=
      findFile_ladder_step hpos hle hnames hnamed hdir h
    · rw [components_level helem, List.length_cons]
      omega
    · have hlt := ih hdir' hfind
      have hrange := (@Tree.searched_mem _ _ path _ (ladderTree names hpos hle) hdir).1
      have hsearched := @ladder_searched_le names (rest path) clusters dir'
      rw [components_level helem, List.length_cons]
      omega

/-- It falls behind where two slashes are in a row. -/
theorem findFile_ladder_double (hnamed : ∀ name ∈ names, Named name)
    (hdir : dir = 0 ∨ (2 ≤ dir ∧ dir < clusters + 2)) (hdouble : [Path.slash, Path.slash] <:+: path)
    (h : (ladder names clusters).findFile fuel path dir = some (some r, after)) :
    r.cluster + 1 < (ladder names clusters).searched path dir + (components path).length := by
  induction fuel generalizing path dir with
  | zero => cases h
  | succ fuel ih =>
    obtain ⟨helem, hgo⟩ := findFile_ladder_step hpos hle hnames hnamed hdir h
    have hcases := double_cases helem hdouble
    have hrange := (@Tree.searched_mem _ _ path _ (ladderTree names hpos hle) hdir).1
    rw [components_level helem, List.length_cons]
    obtain ⟨-, hnil⟩ | ⟨dir', hdir', hdir'le, hfind⟩ := hgo
    · rw [hnil] at hcases
      exact absurd hcases (by decide)
    obtain hroot | hdouble := hcases
    · -- the level below begins at the root directory
      have hlt := findFile_ladder_lt hpos hle hnames hnamed hdir' hfind
      have hsearched : (ladder names clusters).searched (rest path) dir' = 2 := if_pos (Or.inl hroot)
      omega
    · have hlt := ih hdir' hdouble hfind
      have hsearched := @ladder_searched_le names (rest path) clusters dir'
      omega

end Ladder

/-- What a path stands for on the ladder is as many directories further on as it has components. -/
theorem walk_ladder (hle : clusters + 2 ≤ 0x0ffffff8) (hzero : ∀ name ∈ names, 0 ∉ name)
    (hlive : ∀ name ∈ names, name.head? ≠ some kDeleted) (hmem : comps ⊆ names) (hne : comps ≠ [])
    (hdir : 2 ≤ dir)
    (hlength : dir + comps.length ≤ clusters + 2) :
    ∃ r, ((ladder names clusters).walk (fun c => [c]) trailing comps dir).1 = some r ∧
      r.cluster + 1 = dir + comps.length := by
  induction comps generalizing dir with
  | nil => exact absurd rfl hne
  | cons name comps ih =>
    obtain ⟨hname, hmem⟩ := List.cons_subset.mp hmem
    obtain ⟨r, hcluster, hr⟩ := @shelves_lookup names name clusters dir (nextRung clusters) hzero hname
    rw [List.length_cons] at hlength ⊢
    rw [walk, lookupLive_eq (hlive name hname), ladder, hr]
    change ∃ r', (if _ ∧ comps ≠ [] then _ else _ : Option EntryRef × Bool).1 = some r' ∧ _
    by_cases hcomps : comps = []
    · rw [if_neg fun h => h.2 hcomps]
      refine ⟨r, rfl, ?_⟩
      rw [hcluster, hcomps]
      rfl
    · have hpos := List.length_pos_of_ne_nil hcomps
      have hnext : ((ladder names clusters).entry r).firstCluster = dir + 1 := by
        rw [ladder_firstCluster hle, hcluster, nextRung, if_pos (by omega)]
      rw [if_pos ⟨rfl, hcomps⟩, ← ladder, hnext, directoryOf, if_neg (Nat.succ_ne_zero dir)]
      obtain ⟨r', hr', hlast⟩ := ih hmem hcomps (Nat.le_succ_of_le hdir) (by omega)
      exact ⟨r', hr', by omega⟩

end Volume

section Result

variable {path : Path}

theorem zero_notMem_components (hpath : 0 ∉ path) : ∀ name ∈ components path, 0 ∉ name := by
  intro name hname
  exact mt ((mem_splitOn (List.mem_of_mem_filter hname)).1 ·) hpath

/-- A path that resolves on the ladder of its components has no two slashes in a row. -/
theorem single_of_resolves (hpath : 0 ∉ path) (hlength : (components path).length + 2 ≤ 0x0ffffff8)
    (hnamed : ∀ name ∈ components path, Named name) (h : Resolves path) :
    ¬[Path.slash, Path.slash] <:+: path := by
  intro hdouble
  have hne := nonempty_of_resolves hpath h
  have hpos := List.length_pos_of_ne_nil hne
  have hwf := @shelves_wellFormed _ _ (nextRung (components path).length) hne hlength
  obtain ⟨r, hwalk, hlast⟩ := @walk_ladder _ (components path) (components path).length 2
      (endsInSlash path) hlength
    (zero_notMem_components hpath) (live_of_resolves hpath h) (List.Subset.refl _) hne (Nat.le_refl 2)
    (by omega)
  have hroot : (ladder (components path) (components path).length).searched path 0 = 2 := if_pos (Or.inr rfl)
  have hfind := h _ _ hwf (ladderTree _ hpos hlength) 0 (Or.inl rfl) _ (Nat.lt_succ_self _)
  have hresolve : (ladder (components path) (components path).length).resolve (fun c => [c]) path 0 =
      (some r, ((ladder (components path) (components path).length).resolve (fun c => [c]) path 0).2) := by
    rw [resolve, hroot, ← hwalk]
  have hbehind := findFile_ladder_double hpos hlength hne hnamed (Or.inl rfl) hdouble
    (hfind.trans (congrArg some hresolve))
  omega

/-- `FindFile` walks along every plain path. Where the components are names of entries, and not more than a
volume has clusters, it does so along no other path. -/
theorem resolves_iff (path : Path) (hpath : 0 ∉ path) :
    (Plain path → Resolves path) ∧
      ((components path).length + 2 ≤ 0x0ffffff8 → (∀ name ∈ components path, Named name) →
        (Resolves path ↔ Plain path)) := by
  have hplain : Plain path → Resolves path := fun h _ _ hv tree _ hdir _ hfuel =>
    findFile_of_plain tree hv h hdir hfuel
  refine ⟨hplain, ?_⟩
  intro hlength hnamed
  refine ⟨fun h => ?_, hplain⟩
  exact ⟨nonempty_of_resolves hpath h, single_of_resolves hpath hlength hnamed h, live_of_resolves hpath h⟩

theorem resolves_iff_twoComponents : Plain [0x61, 0x2f, 0x62] ∧ Resolves [0x61, 0x2f, 0x62] := by
  have hplain : Plain [0x61, 0x2f, 0x62] := ⟨by decide, by decide, by decide⟩
  exact ⟨hplain, (resolves_iff [0x61, 0x2f, 0x62] (by decide)).1 hplain⟩

/-- `a//b`: the entry of the root directory instead of the one in `a`. -/
theorem not_resolves_doubleSlash : ¬Resolves [0x61, 0x2f, 0x2f, 0x62] := by
  intro h
  have hwf := @shelves_wellFormed [[0x61], [0x62]] 2 (nextRung 2) (by decide) (by decide)
  have hfind := h _ 2 hwf (ladderTree _ (by decide) (by decide)) 0 (Or.inl rfl) 5 (by decide)
  exact absurd hfind (by decide)

end Result

end MikanOS.Fat
