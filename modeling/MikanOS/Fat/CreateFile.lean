import MikanOS.Fat.Lookup
import MikanOS.Fat.Separation
import MikanOS.Fat.RoundTrip

/-! # Creating files

`CreateFile` takes an unused entry of the directory as it is: the name and the size are set, the first
cluster and the attribute stay from the file that the entry was of before. -/

namespace MikanOS.Fat

open LinkedChain

namespace Volume

variable {vol vol' : Volume} {clusters c : Nat} {cs : List Nat} {live : List EntryRef} {r : EntryRef}
  {path : Path}

/-! ## What `CreateFile` does -/

/-- The search for an unused entry goes along the chain of the directory. -/
theorem findSlot_spec {fuel : Nat} (h : Chain vol.fat IsEndOfClusterchain c cs)
    (hfuel : cs.length ≤ fuel) :
    (∃ r, vol.findSlot fuel c = some (.inl r) ∧ r.cluster ∈ cs) ∨
      ∃ t ∈ cs, vol.findSlot fuel c = some (.inr t) := by
  rw [findSlot_eq h hfuel]
  cases hunused : (vol.slots cs).find? (vol.Unused ·) with
  | some r => exact .inl ⟨r, rfl, cluster_mem_of_mem_slots (List.mem_of_find?_eq_some hunused)⟩
  | none => exact .inr ⟨_, List.getLast_mem h.ne_nil, rfl⟩

/-- An entry with the name and the size of a new file. -/
def named (vol : Volume) (r : EntryRef) (name : Path) : Volume :=
  vol.setEntry r { SetFileName (vol.entry r) name with fileSize := 0 }

theorem named_entry (vol : Volume) (r : EntryRef) (name : Path) (r' : EntryRef) :
    ((vol.named r name).entry r').firstCluster = (vol.entry r').firstCluster ∧
      ((vol.named r name).entry r').attr = (vol.entry r').attr := by
  by_cases h : r' = r
  · subst h
    simp [named, setEntry, SetFileName, DirectoryEntry.firstCluster]
  · simp [named, setEntry, h]

/-- The ways of `CreateFile`: an error that changes nothing, an unused entry, or the first entry of a
new cluster of the directory. -/
theorem createFile_cases {file : WithError (Option EntryRef)}
    (h : vol.createFile path = some (file, vol')) :
    (file.value = none ∧ vol' = vol) ∨
    ∃ dirCluster, vol.parentCluster path = some (.ok dirCluster) ∧
      ((∃ r, vol.findSlot (vol.fatWords + 1) dirCluster = some (.inl r) ∧ file.value = some r ∧
        vol' = vol.named r (splitPath path).2) ∨
      ∃ t x vol₁, vol.findSlot (vol.fatWords + 1) dirCluster = some (.inr t) ∧
        vol.extendCluster t 1 = some (x, vol₁) ∧ file.value = some ⟨x, 0⟩ ∧
        vol' = (vol₁.clearDirectory x).named ⟨x, 0⟩ (splitPath path).2) := by
  simp only [createFile, Option.bind_eq_bind, Option.bind_eq_some_iff] at h
  obtain ⟨parent, hparent, h⟩ := h
  cases parent with
  | error err =>
    cases h
    exact .inl ⟨rfl, rfl⟩
  | ok dirCluster =>
    refine .inr ⟨dirCluster, hparent, ?_⟩
    simp only [Option.bind_eq_some_iff] at h
    obtain ⟨⟨dir, vol₂⟩, halloc, h⟩ := h
    simp only [allocateEntry, Option.bind_eq_bind, Option.bind_eq_some_iff] at halloc
    obtain ⟨slot, hslot, halloc⟩ := halloc
    cases slot with
    | inl r =>
      cases halloc
      cases h
      exact .inl ⟨r, hslot, rfl, rfl⟩
    | inr t =>
      simp only [Option.bind_eq_some_iff] at halloc
      obtain ⟨⟨x, vol₁⟩, hext, halloc⟩ := halloc
      cases halloc
      cases h
      exact .inr ⟨t, x, vol₁, hslot, hext, rfl, rfl⟩

/-! ## The entry that it returns -/

/-- The entry denotes an empty regular file. -/
def EmptyRegular (vol : Volume) (r : EntryRef) : Prop :=
  (vol.entry r).firstCluster = 0 ∧ (vol.entry r).fileSize = 0 ∧ (vol.entry r).attr ≠ kDirectory

/-- The unused entry that `AllocateEntry` finds, if it finds one, has no cluster and is not marked as
a directory. -/
def CleanSlot (vol : Volume) (path : Path) : Prop :=
  ∀ dirCluster r, vol.parentCluster path = some (.ok dirCluster) →
    vol.findSlot (vol.fatWords + 1) dirCluster = some (.inl r) →
    (vol.entry r).firstCluster = 0 ∧ (vol.entry r).attr ≠ kDirectory

theorem clearDirectory_entry (vol : Volume) (x : Nat) :
    ((vol.clearDirectory x).entry ⟨x, 0⟩).firstCluster = 0 ∧
      ((vol.clearDirectory x).entry ⟨x, 0⟩).attr ≠ kDirectory := by
  simp [clearDirectory, DirectoryEntry.firstCluster, kDirectory]

theorem createFile_emptyRegular_iff {file : WithError (Option EntryRef)}
    (h : vol.createFile path = some (file, vol')) (hr : file.value = some r) :
    EmptyRegular vol' r ↔ CleanSlot vol path := by
  obtain ⟨hnone, -⟩ | ⟨dirCluster, hparent, ⟨r', hslot, hr', rfl⟩ | ⟨t, x, vol₁, hslot, -, hr', rfl⟩⟩ :=
    createFile_cases h
  · rw [hnone] at hr
    cases hr
  · rw [hr'] at hr
    cases hr
    have hsize : ((vol.named r (splitPath path).2).entry r).fileSize = 0 := by
      simp [named, setEntry]
    obtain ⟨hfirst, hattr⟩ := named_entry vol r (splitPath path).2 r
    rw [EmptyRegular, hfirst, hattr]
    constructor
    · intro h dirCluster' r' hparent' hslot'
      rw [hparent] at hparent'
      cases hparent'
      rw [hslot] at hslot'
      cases hslot'
      exact ⟨h.1, h.2.2⟩
    · intro h
      obtain ⟨h0, hdir⟩ := h dirCluster r hparent hslot
      exact ⟨h0, hsize, hdir⟩
  · rw [hr'] at hr
    cases hr
    have hsize : (((vol₁.clearDirectory x).named ⟨x, 0⟩ (splitPath path).2).entry ⟨x, 0⟩).fileSize
        = 0 := by
      simp [named, setEntry]
    obtain ⟨hfirst, hattr⟩ :=
      named_entry (vol₁.clearDirectory x) ⟨x, 0⟩ (splitPath path).2 ⟨x, 0⟩
    obtain ⟨h0, hdir⟩ := clearDirectory_entry vol₁ x
    refine iff_of_true ⟨hfirst.trans h0, hsize, hattr ▸ hdir⟩ fun dirCluster' r' hparent' hslot' => ?_
    rw [hparent] at hparent'
    cases hparent'
    rw [hslot] at hslot'
    cases hslot'

/-! ## The chains -/

/-- An entry without a cluster joins the entries in use. -/
theorem Separated.insert (H : Separated clusters vol live) (h0 : (vol.entry r).firstCluster = 0) :
    Separated clusters vol (r :: live) := by
  have hmem : ∀ o ∈ owners (r :: live), o = some r ∨ o ∈ owners live := by
    intro o ho
    simp only [owners, List.map_cons, List.mem_cons] at ho ⊢
    rcases ho with h | h | h
    · exact .inr (.inl h)
    · exact .inl h
    · exact .inr (.inr h)
  have hnone : ∀ cs, ¬ vol.FileChain clusters (vol.first (some r)) cs := fun cs hcs => by
    rw [first, h0] at hcs
    exact not_fileChain_zero hcs
  refine ⟨H.wf, H.words, fun o ho => ?_, fun o ho o' ho' hne cs cs' hcs hcs' => ?_⟩
  · rcases hmem o ho with rfl | ho
    · exact .inl ⟨Option.some_ne_none _, h0⟩
    · exact H.chain o ho
  · rcases hmem o ho with rfl | ho
    · exact absurd hcs (hnone cs)
    · rcases hmem o' ho' with rfl | ho'
      · exact absurd hcs' (hnone cs')
      · exact H.disjoint o ho o' ho' hne cs cs' hcs hcs'

theorem Separated.named (H : Separated clusters vol live) (h0 : (vol.entry r).firstCluster = 0)
    (name : Path) :
    Separated clusters (vol.named r name) (r :: live) ∧
      Keeps clusters vol (vol.named r name) live := by
  obtain ⟨H', hk⟩ : Separated clusters (vol.named r name) live ∧
      Keeps clusters vol (vol.named r name) live := by
    refine H.congr rfl (fun o _ => ?_) rfl rfl rfl
    cases o with
    | none => rfl
    | some r' => exact (named_entry vol r name r').1
  exact ⟨H'.insert ((named_entry vol r name r).1.trans h0), hk⟩

/-- The path's parent is the root directory or a directory in use. -/
def ParentIsDirectory (vol : Volume) (live : List EntryRef) (path : Path) : Prop :=
  ∀ dirCluster, vol.parentCluster path = some (.ok dirCluster) → dirCluster = vol.rootCluster ∨
    ∃ r ∈ live, (vol.entry r).attr = kDirectory ∧ (vol.entry r).firstCluster = dirCluster ∧
      dirCluster ≠ 0

/-- `CreateFile` with a clean slot keeps the files apart. -/
theorem Separated.createFile (H : Separated clusters vol live)
    (htaken : ∀ r ∈ live, vol.fat r.cluster ≠ 0) (hparent : ParentIsDirectory vol live path)
    (hclean : CleanSlot vol path) {file : WithError (Option EntryRef)}
    (h : vol.createFile path = some (file, vol')) :
    Separated clusters vol' (file.value.toList ++ live) ∧ Keeps clusters vol vol' live ∧
      ∀ r ∈ file.value.toList ++ live, vol'.fat r.cluster ≠ 0 := by
  obtain ⟨hnone, rfl⟩ | ⟨dirCluster, hdir, hcase⟩ := createFile_cases h
  · rw [hnone]
    exact ⟨H, .refl _ _ _, htaken⟩
  · -- the chain of the parent directory
    obtain ⟨o, ho, hfirst⟩ : ∃ o ∈ owners live, vol.first o = dirCluster ∧ (o ≠ none → dirCluster ≠ 0) := by
      rcases hparent dirCluster hdir with rfl | ⟨r, hr, -, hfirst, hne⟩
      · exact ⟨none, none_mem_owners, rfl, fun h => absurd rfl h⟩
      · exact ⟨some r, mem_owners.mpr hr, hfirst, fun _ => hne⟩
    obtain ⟨cs, hcs⟩ : ∃ cs, vol.FileChain clusters dirCluster cs := by
      rcases H.chain o ho with ⟨hnone, h0⟩ | ⟨cs, hcs⟩
      · exact absurd (hfirst.1.symm.trans h0) (hfirst.2 hnone)
      · exact ⟨cs, hfirst.1 ▸ hcs⟩
    have hfuel : cs.length ≤ vol.fatWords + 1 := by
      have := hcs.length_le
      have := H.words
      omega
    have hsearch := findSlot_spec hcs.chain hfuel
    obtain ⟨r, hslot, hr, rfl⟩ | ⟨t, x, vol₁, hslot, hext, hr, rfl⟩ := hcase
    · rw [hr]
      obtain ⟨h0, -⟩ := hclean dirCluster r hdir hslot
      obtain ⟨H', hk⟩ := H.named h0 (splitPath path).2
      refine ⟨H', hk, fun r' hr' => ?_⟩
      rcases List.mem_cons.mp hr' with rfl | hr'
      · rcases hsearch with ⟨r, hr, hmem⟩ | ⟨t, -, ht⟩
        · rw [hslot] at hr
          cases hr
          exact hcs.fat_ne_zero hmem
        · rw [hslot] at ht
          cases ht
      · exact htaken r' hr'
    · rw [hr]
      have ht : t ∈ cs := by
        rcases hsearch with ⟨r, hr, -⟩ | ⟨t', ht', hr⟩
        · rw [hslot] at hr
          cases hr
        · rw [hslot] at hr
          cases hr
          exact ht'
      obtain ⟨H₁, hk₁, hent, new, hlen, hfree, hlast, hchain⟩ :=
        H.extendCluster ho (hfirst.1.symm ▸ hcs) ht hext
      obtain ⟨y, rfl⟩ := List.length_eq_one_iff.mp hlen
      obtain rfl : x = y := by simpa using hlast
      have hx : vol₁.fat x ≠ 0 := hchain.fat_ne_zero (by simp)
      have hx0 : vol.fat x = 0 := hfree x List.mem_cons_self
      -- no entry in use lies in the new cluster
      obtain ⟨H₂, hk₂⟩ : Separated clusters (vol₁.clearDirectory x) live ∧
          Keeps clusters vol₁ (vol₁.clearDirectory x) live := by
        refine H₁.congr rfl (fun o ho => ?_) rfl rfl rfl
        cases o with
        | none => rfl
        | some r' =>
          have hne : r'.cluster ≠ x := by
            rintro rfl
            exact htaken r' (mem_owners.mp ho) hx0
          simp only [first, clearDirectory, if_neg hne]
      obtain ⟨H₃, hk₃⟩ := H₂.named (clearDirectory_entry _ x).1 (splitPath path).2
      have hk := (hk₁.trans hk₂).trans hk₃
      refine ⟨H₃, hk, fun r' hr' => ?_⟩
      rcases List.mem_cons.mp hr' with rfl | hr'
      · exact hx
      · exact hk.taken _ (htaken r' hr')

/-! ## Sequences of calls -/

/-- The volume, its entries in use, and the open descriptors. -/
structure Files where
  vol : Volume
  live : List EntryRef
  fds : List FileDescriptor

namespace Files

inductive Event where
  | createFile (path : Path)
  | openFile (r : EntryRef)
  | write (i : Nat) (buf : Nat → UInt8) (len : Nat)

/-- The calls of applications: a file is created, a regular file gets a descriptor, a descriptor
writes. -/
def step (s : Files) : Event → Option Files
  | .createFile path => do
    let (file, vol) ← s.vol.createFile path
    some { s with vol, live := file.value.toList ++ s.live }
  | .openFile r =>
    if r ∈ s.live ∧ (s.vol.entry r).attr ≠ kDirectory then
      some { s with fds := s.fds ++ [{ fatEntry := r }] }
    else none
  | .write i buf len => do
    let fd ← s.fds[i]?
    let (_, vol, fd) ← fd.write s.vol buf len
    some { s with vol, fds := s.fds.set i fd }

def system : Transition.System Files Event := ⟨step⟩

/-- A file is created in a directory, and in a clean slot. -/
def Clean (s : Files) : Event → Prop
  | .createFile path => ParentIsDirectory s.vol s.live path ∧ CleanSlot s.vol path
  | _ => True

/-- The files are apart, the entries in use lie in clusters in use, and every descriptor is on the
chain of its own file. -/
structure Invariant (clusters : Nat) (s : Files) : Prop where
  separated : Separated clusters s.vol s.live
  taken : ∀ r ∈ s.live, s.vol.fat r.cluster ≠ 0
  onChain : ∀ fd ∈ s.fds, FileDescriptor.OnChain clusters s.vol s.live fd

variable {s s' : Files} {e : Event} {es : List Event}

theorem invariant_createFile (H : Invariant clusters s) (hclean : Clean s (.createFile path))
    (h : step s (.createFile path) = some s') : Invariant clusters s' := by
  simp only [step, Option.bind_eq_bind, Option.bind_eq_some_iff] at h
  obtain ⟨⟨file, vol'⟩, hcreate, h⟩ := h
  cases h
  obtain ⟨Hsep, Hkeep, htaken⟩ := H.separated.createFile H.taken hclean.1 hclean.2 hcreate
  refine ⟨Hsep, htaken, fun fd hfd => ?_⟩
  obtain ⟨hent, hcluster⟩ := (H.onChain fd hfd).keep Hkeep
  exact ⟨List.mem_append_right _ hent, hcluster⟩

theorem invariant_openFile (H : Invariant clusters s) (h : step s (.openFile r) = some s') :
    Invariant clusters s' := by
  simp only [step] at h
  split at h
  · rename_i hr
    cases h
    refine ⟨H.separated, H.taken, fun fd hfd => ?_⟩
    rcases List.mem_append.mp hfd with hfd | hfd
    · exact H.onChain fd hfd
    · rw [List.mem_singleton.mp hfd]
      exact ⟨hr.1, .inl rfl⟩
  · cases h

theorem invariant_write {i len : Nat} {buf : Nat → UInt8} (H : Invariant clusters s)
    (h : step s (.write i buf len) = some s') : Invariant clusters s' := by
  simp only [step, Option.bind_eq_bind, Option.bind_eq_some_iff] at h
  obtain ⟨fd, hfd, ⟨n, vol', fd'⟩, hwrite, h⟩ := h
  cases h
  have hmem : fd ∈ s.fds := List.mem_of_getElem? hfd
  obtain ⟨Hsep, Hkeep, -, hfd'⟩ := FileDescriptor.write_safe H.separated (H.onChain fd hmem) hwrite
  refine ⟨Hsep, fun r hr => Hkeep.taken _ (H.taken r hr), fun fd₁ hfd₁ => ?_⟩
  rcases List.mem_or_eq_of_mem_set hfd₁ with hfd₁ | rfl
  · exact (H.onChain fd₁ hfd₁).keep Hkeep
  · exact hfd'

theorem invariant_step (H : Invariant clusters s) (hclean : Clean s e) (h : step s e = some s') :
    Invariant clusters s' := by
  cases e with
  | createFile path => exact invariant_createFile H hclean h
  | openFile r => exact invariant_openFile H h
  | write i buf len => exact invariant_write H h

theorem separated_emptyVolume : Separated 126 FileDescriptor.emptyVolume [] := by
  have hroot : FileDescriptor.emptyVolume.FileChain 126 2 [2] := ⟨.last (by decide), by decide⟩
  refine ⟨FileDescriptor.emptyVolume_wellFormed, rfl, fun o ho => ?_, fun o ho o' ho' hne => ?_⟩
  · rw [List.mem_singleton.mp ho]
    exact .inr ⟨[2], hroot⟩
  · exact absurd ((List.mem_singleton.mp ho).trans (List.mem_singleton.mp ho').symm) hne

/-- The root directory holds a deleted file, and the file that has its cluster now. -/
def staleVolume : Volume :=
  { FileDescriptor.emptyVolume with
    fat := fun c => if c < 4 then kEndOfClusterchain else 0
    entry := fun r =>
      if r = ⟨2, 0⟩ then ⟨(Vector.replicate 11 0x20).set 0 0xe5 name_pos, 0x20, 0, 3, 512⟩
      else if r = ⟨2, 1⟩ then ⟨(Vector.replicate 11 0x20).set 0 0x42 name_pos, 0x20, 0, 3, 512⟩
      else ⟨.replicate 11 0, 0, 0, 0, 0⟩ }

theorem separated_staleVolume : Separated 126 staleVolume [⟨2, 1⟩] := by
  have hroot : staleVolume.FileChain 126 2 [2] := ⟨.last (by decide), by decide⟩
  have hfile : staleVolume.FileChain 126 3 [3] := ⟨.last (by decide), by decide⟩
  have hcases : ∀ o ∈ owners [⟨2, 1⟩], o = none ∨ o = some ⟨2, 1⟩ := by simp [owners]
  refine ⟨⟨by decide, by decide, by decide⟩, rfl, fun o ho => ?_,
    fun o ho o' ho' hne cs cs' hcs hcs' => ?_⟩
  · rcases hcases o ho with rfl | rfl
    · exact .inr ⟨[2], hroot⟩
    · exact .inr ⟨[3], hfile⟩
  · rcases hcases o ho with rfl | rfl
    · rcases hcases o' ho' with rfl | rfl
      · exact absurd rfl hne
      · rw [hcs.unique hroot, hcs'.unique hfile]
        simp
    · rcases hcases o' ho' with rfl | rfl
      · rw [hcs.unique hfile, hcs'.unique hroot]
        simp
      · exact absurd rfl hne

end Files

end Volume

end MikanOS.Fat
