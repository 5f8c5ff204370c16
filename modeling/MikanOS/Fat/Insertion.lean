import MikanOS.Fat.CreateFile
import MikanOS.Fat.Shelves

/-! # A new entry in a directory

`CreateFile` gives the first unused entry of a directory a name, and a directory without one gets a cluster
more. What is found in the directory afterwards, and that nothing else changes. -/

namespace MikanOS.Fat

open LinkedChain

/-- The eleven bytes that `SetFileName` stores. -/
def storedName (name : Path) : Vector UInt8 11 := (SetFileName ⟨.replicate 11 0, 0, 0, 0, 0⟩ name).name

theorem SetFileName_name (e : DirectoryEntry) (name : Path) : (SetFileName e name).name = storedName name :=
    rfl

namespace Volume

/-- The entry `r` of the directory has got the name. Behind it are those of its old place, or the rest of a
new cluster. -/
structure Inserts (vol vol' : Volume) (clusters dir : Nat) (cs cs' : List Nat) (pre post : List EntryRef)
    (r : EntryRef) (name : Path) : Prop where
  rootCluster : vol'.rootCluster = vol.rootCluster
  wf : vol'.WellFormed clusters
  chain : vol'.FileChain clusters dir cs'
  slots : vol'.slots cs' = pre ++ r :: post
  before : (vol.slots cs = pre ++ r :: post ∧ vol.Unused r) ∨
    (vol.slots cs = pre ∧ ∀ x ∈ post, (vol'.entry x).firstByte = 0)
  used : ∀ x ∈ pre, ¬vol.Unused x
  named : (vol'.entry r).name = storedName name
  kept : ∀ x ∈ vol.slots cs, x ≠ r → vol'.entry x = vol.entry x
  others : ∀ d xs, vol.FileChain clusters d xs → xs.Disjoint cs → vol'.FileChain clusters d xs ∧
    vol'.slots xs = vol.slots xs ∧ r ∉ vol.slots xs ∧ ∀ x ∈ vol.slots xs, vol'.entry x = vol.entry x

variable {vol vol' : Volume} {clusters dir c : Nat} {cs cs' : List Nat} {pre post ss : List EntryRef} {r : EntryRef}
  {name path : Path}

/-! ## The entries of a directory -/

theorem slots_append (cs cs' : List Nat) : vol.slots (cs ++ cs') = vol.slots cs ++ vol.slots cs' :=
  List.flatMap_append

theorem slots_congr (h : vol'.bytesPerCluster = vol.bytesPerCluster) : vol'.slots cs = vol.slots cs := by
  rw [slots, slots, entriesPerCluster, entriesPerCluster, h]

theorem nodup_slots (h : cs.Nodup) : (vol.slots cs).Nodup := by
  refine List.nodup_flatMap.mpr ⟨?_, h.imp ?_⟩
  · intro c _
    refine List.nodup_range.map ?_
    intro i j heq
    injection heq
  · intro c c' hne x hx hx'
    obtain ⟨i, -, rfl⟩ := List.mem_map.mp hx
    obtain ⟨j, -, heq⟩ := List.mem_map.mp hx'
    injection heq with hcluster
    exact hne hcluster.symm

/-- The first entry of a cluster and the others. -/
theorem slots_single (h : 0 < vol.entriesPerCluster) : ∃ post, vol.slots [c] = ⟨c, 0⟩ :: post := by
  obtain ⟨n, hn⟩ := Nat.exists_eq_add_one_of_ne_zero (Nat.ne_of_gt h)
  rw [slots, List.flatMap_singleton, hn, List.range_succ_eq_map, List.map_cons]
  exact ⟨_, rfl⟩

/-! ## What `CreateFile` changes -/

theorem named_entry_of_ne {x : EntryRef} (h : x ≠ r) : (vol.named r name).entry x = vol.entry x :=
  Function.update_of_ne h _ _

theorem named_entry_self : ((vol.named r name).entry r).name = storedName name := by
  change (Function.update vol.entry r _ r).name = _
  rw [Function.update_self]
  rfl

theorem cleared_entry_of_ne {x : EntryRef} (h : x.cluster ≠ c) :
    ((vol.clearDirectory c).named ⟨c, 0⟩ name).entry x = vol.entry x := by
  rw [named_entry_of_ne fun heq => h (congrArg EntryRef.cluster heq)]
  exact if_neg h

theorem cleared_entry_zero {x : EntryRef} (h : x.cluster = c) (hx : x ≠ ⟨c, 0⟩) :
    (((vol.clearDirectory c).named ⟨c, 0⟩ name).entry x).firstByte = 0 := by
  have hzero : (vol.clearDirectory c).entry x = ⟨.replicate 11 0, 0, 0, 0, 0⟩ := if_pos h
  rw [named_entry_of_ne hx, hzero]
  rfl

/-- `CreateFile` in the directory with the chain `cs`, on a volume whose clusters are all words of the
table. -/
theorem createFile_inserts (hv : vol.WellFormed clusters) (hwords : clusters + 2 = vol.fatWords)
    (hentries : 0 < vol.entriesPerCluster) (hchain : vol.FileChain clusters dir cs)
    (hparent : vol.parentCluster path = some (.ok dir)) {err : Error}
    (h : vol.createFile path = some (⟨some r, err⟩, vol')) :
    ∃ cs' pre post, Inserts vol vol' clusters dir cs cs' pre post r (splitPath path).2 := by
  have hfuel : cs.length ≤ vol.fatWords + 1 := by
    have hle := hchain.length_le
    omega
  have hfind := findSlot_eq hchain.chain hfuel
  obtain ⟨hnone, -⟩ | ⟨dir', hparent', hcases⟩ := createFile_cases h
  · cases hnone
  cases hparent.symm.trans hparent'
  obtain ⟨s, hslot, hs, rfl⟩ | ⟨t, x, vol₁, hslot, hext, hs, rfl⟩ := hcases
  · cases hs
    rw [hslot] at hfind
    generalize hunused : (vol.slots cs).find? (vol.Unused ·) = found at hfind
    cases found with
    | none => cases hfind
    | some s =>
      cases hfind
      obtain ⟨hr, pre, post, hsplit, hpre⟩ := List.find?_eq_some_iff_append.mp hunused
      refine ⟨cs, pre, post, rfl, ⟨hv.1, hv.2, hv.3⟩, hchain.congr fun _ _ => rfl, hsplit,
        Or.inl ⟨hsplit, of_decide_eq_true hr⟩, ?_, named_entry_self, fun x _ hx => named_entry_of_ne hx, ?_⟩
      · intro x hx hunused
        simpa [hunused] using hpre x hx
      · intro d xs hxs hdisjoint
        have hnot : r ∉ vol.slots xs := by
          intro hmem
          have hr' : r ∈ vol.slots cs := hsplit ▸ List.mem_append_right _ List.mem_cons_self
          exact hdisjoint (cluster_mem_of_mem_slots hmem) (cluster_mem_of_mem_slots hr')
        refine ⟨hxs.congr fun _ _ => rfl, rfl, hnot, ?_⟩
        intro x hx
        exact named_entry_of_ne (ne_of_mem_of_not_mem hx hnot)
  · cases hs
    have hlast : t = cs.getLast hchain.chain.ne_nil ∧ (vol.slots cs).find? (vol.Unused ·) = none := by
      rw [hslot] at hfind
      generalize (vol.slots cs).find? (vol.Unused ·) = found at hfind
      cases found with
      | none =>
        injection hfind with hfind
        injection hfind with hlast
        exact ⟨hlast, rfl⟩
      | some s => cases hfind
    obtain ⟨hlast, hunused⟩ := hlast
    have hcs : cs.dropLast ++ [t] = cs := hlast ▸ List.dropLast_append_getLast hchain.chain.ne_nil
    have hchain' : vol.FileChain clusters dir (cs.dropLast ++ [t]) := hcs.symm ▸ hchain
    obtain ⟨new, hlength, hsub, hextend, hnew, -, -⟩ := extendCluster_spec hv hchain'
      (List.mem_append_right _ (List.mem_singleton_self t)) (le_card_of_extendCluster hv hwords hext)
    obtain ⟨a, rfl⟩ := List.length_eq_one_iff.mp hlength
    cases hextend.symm.trans hext
    change FileChain _ _ _ (cs.dropLast ++ ([t] ++ [a])) at hnew
    rw [← List.append_assoc, hcs] at hnew
    have hfree : vol.fat a = 0 := (mem_freeClusters.mp (hsub (by simp))).2
    have hnotin : ∀ {d xs}, vol.FileChain clusters d xs → a ∉ xs := fun hxs hmem => hxs.fat_ne_zero hmem hfree
    obtain ⟨post, hpost⟩ := @slots_single vol a hentries
    have hnodup := @nodup_slots vol [a] (List.nodup_singleton a)
    rw [hpost] at hnodup
    have hoff : ∀ {d xs x}, vol.FileChain clusters d xs → x ∈ vol.slots xs → x.cluster ≠ a := by
      intro d xs x hxs hx hcluster
      exact hnotin hxs (hcluster ▸ cluster_mem_of_mem_slots hx)
    refine ⟨cs ++ [a], vol.slots cs, post, rfl, ⟨hv.1, hv.2, hv.3⟩, hnew.congr fun _ _ => rfl, ?_,
      Or.inr ⟨rfl, ?_⟩,
      ?_, named_entry_self, fun x hx _ => cleared_entry_of_ne (hoff hchain hx), ?_⟩
    · change vol.slots (cs ++ [a]) = vol.slots cs ++ ⟨a, 0⟩ :: post
      rw [← hpost, slots_append]
    · intro x hx
      have hmem : x ∈ vol.slots [a] := hpost ▸ List.mem_cons_of_mem _ hx
      exact cleared_entry_zero (List.mem_singleton.mp (cluster_mem_of_mem_slots hmem))
        (ne_of_mem_of_not_mem hx (List.nodup_cons.mp hnodup).1)
    · intro x hx hunusedx
      exact absurd (decide_eq_true hunusedx) (List.find?_eq_none.mp hunused x hx)
    · intro d xs hxs hdisjoint
      refine ⟨?_, rfl, fun hmem => hoff hxs hmem rfl, fun x hx => cleared_entry_of_ne (hoff hxs hx)⟩
      refine hxs.congr fun x hx => link_of_notMem ?_ ?_
      · rintro rfl
        exact hdisjoint hx (hcs ▸ List.mem_append_right _ (List.mem_singleton_self x))
      · intro hmem
        exact hnotin hxs (List.mem_singleton.mp hmem ▸ hx)

/-! ## Looking up after the insertion -/

/-- The entries behind the first unused one. -/
def behind (vol : Volume) (ss : List EntryRef) : List EntryRef := (ss.dropWhile fun r => ¬vol.Unused r).tail

section Lookups

variable {elem : Path} {x : EntryRef}

theorem visible_append (h : ∀ x ∈ pre, ¬vol.Unused x) : vol.visible (pre ++ ss) = pre ++ vol.visible ss :=
  List.takeWhile_append_of_pos fun x hx => decide_eq_true fun hzero => h x hx (Or.inl hzero)

theorem lookup_append_used (h : ∀ x ∈ pre, ¬vol.Unused x) : vol.lookup (pre ++ ss) elem =
    (pre.find? fun x => NameIsEqual (vol.entry x) elem).or (vol.lookup ss elem) := by
  rw [lookup, visible_append h, List.find?_append]
  rfl

theorem visible_congr (h : ∀ x ∈ ss, vol'.entry x = vol.entry x) : vol'.visible ss = vol.visible ss := by
  induction ss with
  | nil => rfl
  | cons a ss ih =>
    obtain ⟨ha, hss⟩ := List.forall_mem_cons.mp h
    rw [visible_cons, visible_cons, ha, ih hss]

theorem lookup_congr (h : ∀ x ∈ ss, vol'.entry x = vol.entry x) :
    vol'.lookup ss elem = vol.lookup ss elem := by
  rw [lookup, lookup, visible_congr h]
  apply List.find?_congr
  intro x hx
  rw [h x (mem_of_mem_visible hx)]

theorem visible_of_zero (h : ∀ x ∈ ss, (vol.entry x).firstByte = 0) : vol.visible ss = [] := by
  cases ss with
  | nil => rfl
  | cons a ss => rw [visible_cons, if_pos (h a List.mem_cons_self)]

theorem behind_of_unused (h : ∀ x ∈ pre, ¬vol.Unused x) (hr : vol.Unused r) :
    vol.behind (pre ++ r :: post) = post := by
  rw [behind, List.dropWhile_append_of_pos fun x hx => decide_eq_true (h x hx),
    List.dropWhile_cons_of_neg (by simpa using hr)]
  rfl

theorem behind_of_used (h : ∀ x ∈ pre, ¬vol.Unused x) : vol.behind pre = [] := by
  rw [behind, List.dropWhile_eq_nil_iff.mpr fun x hx => decide_eq_true (h x hx)]
  rfl

/-- The first byte that is stored is a blank or that of the name. -/
theorem storedName_first (name : Path) : getElem (storedName name) 0 name_pos = 0x20 ∨
    ∃ ch, name.head? = some ch ∧ getElem (storedName name) 0 name_pos = toupper ch := by
  have hbegin : (if Path.dot ∈ name then (name.reverse.dropWhile
      (· ≠ Path.dot)).tail.reverse else name) <+: name := by
    split
    · rw [← List.reverse_suffix, List.reverse_reverse]
      exact (List.tail_suffix _).trans (List.dropWhile_suffix _)
    · exact List.prefix_refl name
  have hfirst : getElem (storedName name) 0 name_pos = toupper
      ((if Path.dot ∈ name then (name.reverse.dropWhile
      (· ≠ Path.dot)).tail.reverse else name).getD 0 0x20) := by
    rw [storedName, SetFileName]
    simp only [Vector.getElem_ofFn]
    rfl
  rw [hfirst]
  generalize (if Path.dot ∈ name then (name.reverse.dropWhile (· ≠ Path.dot)).tail.reverse else name) = base
    at hbegin
  obtain ⟨suffix, rfl⟩ := hbegin
  cases base with
  | nil => exact Or.inl (by decide)
  | cons ch base => exact Or.inr ⟨ch, rfl, rfl⟩

theorem storedName_ne_zero (hzero : 0 ∉ name) : getElem (storedName name) 0 name_pos ≠ 0 := by
  obtain h | ⟨ch, hhead, h⟩ := storedName_first name
  · rw [h]
    decide
  · rw [h]
    apply toupper_ne_zero
    rintro rfl
    exact hzero (List.mem_of_head? hhead)

namespace Inserts

variable (H : Inserts vol vol' clusters dir cs cs' pre post r name)
include H

theorem nodup : (pre ++ r :: post).Nodup := H.slots ▸ nodup_slots H.chain.chain.nodup

theorem notMem_pre : r ∉ pre := fun hmem =>
  (List.nodup_append.mp H.nodup).2.2 r hmem r List.mem_cons_self rfl

theorem kept_pre (hx : x ∈ pre) : vol'.entry x = vol.entry x := by
  have hmem : x ∈ vol.slots cs := by
    obtain ⟨heq, -⟩ | ⟨heq, -⟩ := H.before
    · exact heq ▸ List.mem_append_left _ hx
    · exact heq ▸ hx
  exact H.kept x hmem (ne_of_mem_of_not_mem hx H.notMem_pre)

theorem used_after : ∀ x ∈ pre, ¬vol'.Unused x := by
  intro x hx
  rw [Unused, H.kept_pre hx]
  exact H.used x hx

theorem nameIsEqual_iff : NameIsEqual (vol'.entry r) elem ↔
    storedName name = name83 elem 0 (.replicate 11 0x20) := by rw [NameIsEqual, H.named]

theorem firstByte_ne_zero (hzero : 0 ∉ name) : (vol'.entry r).firstByte ≠ 0 := by
  rw [DirectoryEntry.firstByte, H.named]
  exact storedName_ne_zero hzero

theorem kept_post (heq : vol.slots cs = pre ++ r :: post) (hx : x ∈ post) : x ≠ r ∧ vol'.entry x = vol.entry x := by
  have hne := ne_of_mem_of_not_mem hx (List.nodup_cons.mp (List.nodup_append.mp H.nodup).2.1).1
  exact ⟨hne, H.kept x (heq ▸ List.mem_append_right _ (List.mem_cons_of_mem _ hx)) hne⟩

/-- What is behind the new entry is what was behind the first unused one. -/
theorem visible_post : vol'.visible post = vol.visible (vol.behind (vol.slots cs)) := by
  obtain ⟨heq, hr⟩ | ⟨heq, hzero⟩ := H.before
  · rw [heq, behind_of_unused H.used hr]
    exact visible_congr fun x hx => (H.kept_post heq hx).2
  · rw [heq, behind_of_used H.used, visible_of_zero hzero]
    rfl

theorem kept_behind (hx : x ∈ vol.visible (vol.behind (vol.slots cs))) :
    x ≠ r ∧ vol'.entry x = vol.entry x := by
  obtain ⟨heq, hr⟩ | ⟨heq, -⟩ := H.before
  · rw [heq, behind_of_unused H.used hr] at hx
    exact H.kept_post heq (mem_of_mem_visible hx)
  · rw [heq, behind_of_used H.used] at hx
    exact absurd hx List.not_mem_nil

theorem lookup_post : vol'.lookup post elem = vol.lookup (vol.behind (vol.slots cs)) elem := by
  rw [lookup, lookup, H.visible_post]
  apply List.find?_congr
  intro x hx
  rw [(H.kept_behind hx).2]

/-- The directory after the insertion. -/
theorem visible_after (hzero : 0 ∉ name) :
    vol'.visible (vol'.slots cs') = pre ++ r :: vol.visible (vol.behind (vol.slots cs)) := by
  rw [H.slots, visible_append H.used_after, visible_cons, if_neg (H.firstByte_ne_zero hzero), H.visible_post]

theorem lookup_after (hzero : 0 ∉ name) : vol'.lookup (vol'.slots cs') elem =
    (pre.find? fun x => NameIsEqual (vol.entry x) elem).or
      (if storedName name = name83 elem 0 (.replicate 11 0x20) then some r
        else vol.lookup (vol.behind (vol.slots cs)) elem) := by
  have hpre : (pre.find? fun x => NameIsEqual (vol'.entry x) elem) =
      pre.find? fun x => NameIsEqual (vol.entry x) elem := by
    apply List.find?_congr
    intro x hx
    rw [H.kept_pre hx]
  rw [H.slots, lookup_append_used H.used_after, hpre, lookup_cons, if_neg (H.firstByte_ne_zero hzero),
    H.lookup_post]
  simp only [H.nameIsEqual_iff]

/-- The directory before it. -/
theorem lookup_before : vol.lookup (vol.slots cs) elem =
    (pre.find? fun x => NameIsEqual (vol.entry x) elem).or
      (if vol.slots cs = pre ∨ (vol.entry r).firstByte = 0 then none
        else if NameIsEqual (vol.entry r) elem then some r else vol.lookup
        (vol.behind (vol.slots cs)) elem) := by
  obtain ⟨heq, hr⟩ | ⟨heq, -⟩ := H.before
  · have hne : ¬pre ++ r :: post = pre := by simp
    rw [heq, lookup_append_used H.used, lookup_cons, behind_of_unused H.used hr]
    simp only [hne, false_or]
  · rw [if_pos (Or.inl heq), heq]
    have happend := @lookup_append_used vol pre [] elem H.used
    rwa [List.append_nil] at happend

/-- What was found is found again, if it is not the entry that is taken. -/
theorem lookup_found (hzero : 0 ∉ name) (h : vol.lookup (vol.slots cs) elem = some x) (hx : x ≠ r)
    (hne : storedName name ≠ name83 elem 0 (.replicate 11 0x20)) :
    vol'.lookup (vol'.slots cs') elem = some x := by
  rw [H.lookup_after hzero, if_neg hne]
  rw [H.lookup_before] at h
  cases hfind : pre.find? fun x => NameIsEqual (vol.entry x) elem with
  | some y => rwa [hfind] at h
  | none =>
    rw [hfind, Option.none_or] at h
    split at h
    · cases h
    · split at h
      · cases h
        exact absurd rfl hx
      · exact h

/-- What was not found is not found afterwards, if it is not among what was behind the end mark. -/
theorem lookup_none (hzero : 0 ∉ name) (h : vol.lookup (vol.slots cs) elem = none)
    (hne : storedName name ≠ name83 elem 0 (.replicate 11 0x20))
    (hbehind : vol.lookup (vol.behind (vol.slots cs)) elem = none) :
    vol'.lookup (vol'.slots cs') elem = none := by
  rw [H.lookup_after hzero, if_neg hne, hbehind, Option.or_none]
  rw [H.lookup_before] at h
  exact (Option.or_eq_none_iff.mp h).1

/-- The new entry is found by its name. -/
theorem lookup_new (hzero : 0 ∉ name) (h : vol.lookup (vol.slots cs) elem = none)
    (heq : storedName name = name83 elem 0 (.replicate 11 0x20)) :
    vol'.lookup (vol'.slots cs') elem = some r := by
  rw [H.lookup_before] at h
  rw [H.lookup_after hzero, if_pos heq, (Option.or_eq_none_iff.mp h).1, Option.none_or]

end Inserts

end Lookups

end Volume

end MikanOS.Fat
