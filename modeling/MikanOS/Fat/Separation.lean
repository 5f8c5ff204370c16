import MikanOS.Fat.Directory
import MikanOS.Fat.Contents
import MikanOS.Fat.FullVolume
import MikanOS.Library.Transition

/-! # Files do not share clusters

Every directory entry in use owns the chain that begins at its first cluster, and the root directory
owns one. An allocation gives free clusters to one owner; the other chains stay as they are. -/

namespace MikanOS.Fat

open LinkedChain Bytes

namespace Volume

variable {vol vol' : Volume} {clusters c n : Nat} {cs : List Nat}

/-- The root directory (`none`) and the entries in use own chains. -/
def owners (live : List EntryRef) : List (Option EntryRef) := none :: live.map some

/-- Where the chain of an owner begins. -/
def first (vol : Volume) : Option EntryRef → Nat
  | none => vol.rootCluster
  | some r => (vol.entry r).firstCluster

/-- The owners have chains that share no cluster; an entry with the first cluster 0 has none. The
`clusters` are all words of the table in the image. -/
structure Separated (clusters : Nat) (vol : Volume) (live : List EntryRef) : Prop where
  wf : vol.WellFormed clusters
  words : clusters + 2 = vol.fatWords
  chain : ∀ o ∈ owners live, (o ≠ none ∧ vol.first o = 0) ∨
    ∃ cs, vol.FileChain clusters (vol.first o) cs
  disjoint : ∀ o ∈ owners live, ∀ o' ∈ owners live, o ≠ o' → ∀ cs cs',
    vol.FileChain clusters (vol.first o) cs → vol.FileChain clusters (vol.first o') cs' →
    cs.Disjoint cs'

/-- What later clusters and entries of a volume keep of the chains of the owners. -/
structure Keeps (clusters : Nat) (vol vol' : Volume) (live : List EntryRef) : Prop where
  rootCluster : vol'.rootCluster = vol.rootCluster
  chains : ∀ o ∈ owners live, ∀ cs, vol.FileChain clusters (vol.first o) cs →
    ∃ cs', vol'.FileChain clusters (vol'.first o) cs' ∧ cs ⊆ cs'
  taken : ∀ x, vol.fat x ≠ 0 → vol'.fat x ≠ 0

variable {live : List EntryRef} {o o' : Option EntryRef} {r : EntryRef}

theorem mem_owners : some r ∈ owners live ↔ r ∈ live := by simp [owners]

theorem none_mem_owners : none ∈ owners live := List.mem_cons_self

theorem FileChain.unique {cs' : List Nat} (h : vol.FileChain clusters c cs)
    (h' : vol.FileChain clusters c cs') : cs = cs' :=
  h.chain.unique h'.chain

theorem not_fileChain_zero : ¬ vol.FileChain clusters 0 cs := fun h => by
  have := (h.in_range 0 (List.mem_of_mem_head? h.chain.head?_eq)).1
  omega

namespace Keeps

theorem refl (clusters : Nat) (vol : Volume) (live : List EntryRef) : Keeps clusters vol vol live :=
  ⟨rfl, fun _ _ cs h => ⟨cs, h, fun _ hx => hx⟩, fun _ h => h⟩

theorem trans {vol'' : Volume} (h : Keeps clusters vol vol' live)
    (h' : Keeps clusters vol' vol'' live) : Keeps clusters vol vol'' live where
  rootCluster := h'.rootCluster.trans h.rootCluster
  chains o ho cs hcs := by
    obtain ⟨cs', hcs', hsub⟩ := h.chains o ho cs hcs
    obtain ⟨cs'', hcs'', hsub'⟩ := h'.chains o ho cs' hcs'
    exact ⟨cs'', hcs'', fun _ hx => hsub' (hsub hx)⟩
  taken x hx := h'.taken x (h.taken x hx)

end Keeps

/-- One owner's chain gets new clusters that were free: behind its old ones, or as its first. -/
theorem Separated.give {cs new : List Nat} (H : Separated clusters vol live)
    (ho : o ∈ owners live) (hold : cs = [] ∨ vol.FileChain clusters (vol.first o) cs)
    (hempty : cs = [] → vol.first o = 0)
    (hfree : ∀ x ∈ new, vol.fat x = 0) (hchain : vol'.FileChain clusters (vol'.first o) (cs ++ new))
    (hothers : ∀ o' ∈ owners live, o' ≠ o → vol'.first o' = vol.first o')
    (hfat : ∀ x, x ∉ cs → x ∉ new → vol'.fat x = vol.fat x)
    (htaken : ∀ x ∈ new, vol'.fat x ≠ 0)
    (hb : vol'.bytesPerCluster = vol.bytesPerCluster) (hw : vol'.fatWords = vol.fatWords)
    (hr : vol'.rootCluster = vol.rootCluster) :
    Separated clusters vol' live ∧ Keeps clusters vol vol' live := by
  -- the chains of the others, forwards and backwards
  have hapart : ∀ o' ∈ owners live, o' ≠ o → ∀ cs', vol.FileChain clusters (vol.first o') cs' →
      ∀ x ∈ cs', x ∉ cs ∧ x ∉ new := by
    intro o' ho' hne cs' hcs' x hx
    refine ⟨fun hxcs => ?_, fun hxnew => hcs'.fat_ne_zero hx (hfree x hxnew)⟩
    rcases hold with rfl | hold
    · exact List.not_mem_nil hxcs
    · exact H.disjoint o' ho' o ho hne cs' cs hcs' hold hx hxcs
  have hkeep : ∀ o' ∈ owners live, o' ≠ o → ∀ cs', vol.FileChain clusters (vol.first o') cs' →
      vol'.FileChain clusters (vol'.first o') cs' := by
    intro o' ho' hne cs' hcs'
    rw [hothers o' ho' hne]
    exact hcs'.congr fun x hx =>
      hfat x (hapart o' ho' hne cs' hcs' x hx).1 (hapart o' ho' hne cs' hcs' x hx).2
  have hback : ∀ o' ∈ owners live, o' ≠ o → ∀ cs', vol'.FileChain clusters (vol'.first o') cs' →
      vol.FileChain clusters (vol.first o') cs' := by
    intro o' ho' hne cs' hcs'
    rcases H.chain o' ho' with ⟨-, h0⟩ | ⟨cs'', hcs''⟩
    · rw [hothers o' ho' hne, h0] at hcs'
      exact absurd hcs' not_fileChain_zero
    · rwa [hcs'.unique (hkeep o' ho' hne cs'' hcs'')]
  have hnew_apart : ∀ o' ∈ owners live, o' ≠ o → ∀ cs', vol'.FileChain clusters (vol'.first o') cs' →
      ∀ cs'', vol'.FileChain clusters (vol'.first o) cs'' → cs'.Disjoint cs'' := by
    intro o' ho' hne cs' hcs' cs'' hcs'' x hx hx'
    rw [hcs''.unique hchain] at hx'
    have := hapart o' ho' hne cs' (hback o' ho' hne cs' hcs') x hx
    rcases List.mem_append.mp hx' with h | h
    · exact this.1 h
    · exact this.2 h
  refine ⟨⟨H.wf.congr hb hw, H.words.trans hw.symm, fun o' ho' => ?_, fun o₁ h₁ o₂ h₂ hne cs₁ cs₂ hc₁ hc₂ => ?_⟩,
    hr, fun o' ho' cs' hcs' => ?_, fun x hx => ?_⟩
  · by_cases heq : o' = o
    · exact .inr ⟨_, heq ▸ hchain⟩
    · rcases H.chain o' ho' with ⟨hnone, h0⟩ | ⟨cs', hcs'⟩
      · exact .inl ⟨hnone, (hothers o' ho' heq).trans h0⟩
      · exact .inr ⟨cs', hkeep o' ho' heq cs' hcs'⟩
  · by_cases heq₁ : o₁ = o
    · subst heq₁
      exact (hnew_apart o₂ h₂ hne.symm cs₂ hc₂ cs₁ hc₁).symm
    · by_cases heq₂ : o₂ = o
      · subst heq₂
        exact hnew_apart o₁ h₁ hne cs₁ hc₁ cs₂ hc₂
      · exact H.disjoint o₁ h₁ o₂ h₂ hne cs₁ cs₂ (hback o₁ h₁ heq₁ cs₁ hc₁)
          (hback o₂ h₂ heq₂ cs₂ hc₂)
  · by_cases heq : o' = o
    · subst heq
      refine ⟨_, hchain, fun x hx => List.mem_append_left _ ?_⟩
      rcases hold with rfl | hold
      · rw [hempty rfl] at hcs'
        exact absurd hcs' not_fileChain_zero
      · rwa [hold.unique hcs']
    · exact ⟨cs', hkeep o' ho' heq cs' hcs', fun _ hx => hx⟩
  · by_cases hxnew : x ∈ new
    · exact htaken x hxnew
    · by_cases hxcs : x ∈ cs
      · exact hchain.fat_ne_zero (List.mem_append_left _ hxcs)
      · rwa [hfat x hxcs hxnew]

/-- Neither the bytes of the clusters nor the sizes and names of the entries matter. -/
theorem Separated.congr (H : Separated clusters vol live) (hf : vol'.fat = vol.fat)
    (hfirst : ∀ o ∈ owners live, vol'.first o = vol.first o)
    (hb : vol'.bytesPerCluster = vol.bytesPerCluster) (hw : vol'.fatWords = vol.fatWords)
    (hr : vol'.rootCluster = vol.rootCluster) :
    Separated clusters vol' live ∧ Keeps clusters vol vol' live := by
  have hchain {c : Nat} {cs : List Nat} :
      vol'.FileChain clusters c cs ↔ vol.FileChain clusters c cs :=
    ⟨fun h => h.congr fun x _ => (congrFun hf x).symm, fun h => h.congr fun x _ => congrFun hf x⟩
  refine ⟨⟨H.wf.congr hb hw, H.words.trans hw.symm, fun o ho => ?_,
    fun o ho o' ho' hne cs cs' hcs hcs' => ?_⟩, hr, fun o ho cs hcs => ⟨cs, ?_, fun _ hx => hx⟩,
    fun x hx => hf ▸ hx⟩
  · rw [hfirst o ho]
    exact (H.chain o ho).imp_right (Exists.imp fun cs => hchain.mpr)
  · rw [hfirst o ho] at hcs
    rw [hfirst o' ho'] at hcs'
    exact H.disjoint o ho o' ho' hne cs cs' (hchain.mp hcs) (hchain.mp hcs')
  · rw [hfirst o ho]
    exact hchain.mpr hcs

/-! ## The allocations -/

/-- A loop that returns has found enough free candidates. -/
theorem le_card_of_extendLoop {fuel candidate current last : Nat} (hcand : 2 ≤ candidate)
    (hlim : candidate + fuel ≤ 2 ^ 32) (hcur : vol.fat current ≠ 0 ∨ current < candidate)
    (h : extendLoop vol fuel candidate current n = some (vol', last)) :
    n ≤ ((Finset.Ico candidate (candidate + fuel)).filter (vol.fat · = 0)).card := by
  induction fuel generalizing vol candidate current n with
  | zero =>
    cases n with
    | zero => exact Nat.zero_le _
    | succ n => cases h
  | succ fuel ih =>
    cases n with
    | zero => exact Nat.zero_le _
    | succ n =>
      have hsplit : candidate < candidate + (fuel + 1) := by omega
      have hsum : candidate + (fuel + 1) = candidate + 1 + fuel := by omega
      rw [← Finset.insert_Ico_add_one_left_eq_Ico hsplit, Finset.filter_insert, hsum]
      rw [extendLoop] at h
      split at h
      · rename_i hfree
        rw [if_neg hfree]
        exact ih (by omega) (by omega) (hcur.imp_right (by omega)) h
      · rename_i hfree
        rw [if_pos (not_not.mp hfree), Finset.card_insert_of_notMem (by simp)]
        have hrest := ih (by omega) (by omega) (.inr (Nat.lt_add_one candidate)) h
        rw [Finset.filter_congr fun a ha => free_setFat_iff (by omega) (by omega)
          (hcur.imp_right (by have := (Finset.mem_Ico.mp ha).1; omega))] at hrest
        omega

theorem le_card_of_extendCluster (hv : vol.WellFormed clusters) (hw : clusters + 2 = vol.fatWords)
    {last : Nat} (h : vol.extendCluster c n = some (last, vol')) :
    n ≤ (vol.freeClusters clusters).card := by
  have hnot := hv.not_end
  simp only [extendCluster, Option.bind_eq_bind, Option.bind_eq_some_iff] at h
  obtain ⟨t, ht, ⟨vol₁, current⟩, hloop, -⟩ := h
  have ht0 : vol.fat t ≠ 0 := by
    intro heq
    have hend := endOfChain_isEnd ht
    rw [heq] at hend
    exact absurd hend (by decide)
  have hle := le_card_of_extendLoop (Nat.le_refl 2) (by omega) (.inl ht0) hloop
  have hrange : 2 + (vol.fatWords - 2) = clusters + 2 := by omega
  rwa [hrange] at hle

/-- `ExtendCluster` from a cluster of an owner's chain. -/
theorem Separated.extendCluster (H : Separated clusters vol live) (ho : o ∈ owners live)
    (hcs : vol.FileChain clusters (vol.first o) cs) (hc : c ∈ cs) {last : Nat}
    (h : vol.extendCluster c n = some (last, vol')) :
    Separated clusters vol' live ∧ Keeps clusters vol vol' live ∧ vol'.entry = vol.entry ∧
      ∃ new, new.length = n ∧ (∀ x ∈ new, vol.fat x = 0) ∧
        last = (cs ++ new).getLast (by simp [hcs.chain.ne_nil]) ∧
        vol'.FileChain clusters (vol'.first o) (cs ++ new) := by
  obtain ⟨pre, t, rfl⟩ : ∃ pre t, cs = pre ++ [t] :=
    ⟨_, _, (List.dropLast_append_getLast hcs.chain.ne_nil).symm⟩
  have hn := le_card_of_extendCluster H.wf H.words h
  obtain ⟨new, hlen, hsub, hext, hchain, -, -⟩ := extendCluster_spec H.wf hcs hc hn
  rw [hext] at h
  cases h
  have hfree : ∀ x ∈ new, vol.fat x = 0 := fun x hx =>
    (mem_freeClusters.mp (hsub (List.mem_toFinset.mpr hx))).2
  have happend : pre ++ t :: new = pre ++ [t] ++ new := by simp
  rw [happend] at hchain
  have hfirst : ∀ o' : Option EntryRef, first { vol with
      fat := link vol.fat kEndOfClusterchain t new } o' = vol.first o' := fun o' => by
    cases o' with
    | none | some r => rfl
  obtain ⟨Hsep, Hkeep⟩ := H.give ho (.inr hcs) (fun h => absurd h (by simp)) hfree
    (show FileChain { vol with fat := link vol.fat kEndOfClusterchain t new } clusters _ _ from
      (hfirst o).symm ▸ hchain)
    (fun o' _ _ => hfirst o')
    (fun x hxcs hxnew => link_of_notMem (fun h => hxcs (by simp [h])) hxnew)
    (fun x hx => hchain.fat_ne_zero (List.mem_append_right _ hx)) rfl rfl rfl
  refine ⟨Hsep, Hkeep, rfl, new, hlen, hfree, ?_, (hfirst o).symm ▸ hchain⟩
  simp only [List.append_assoc, List.singleton_append]
  rw [List.getLast_append_of_right_ne_nil _ _ (List.cons_ne_nil _ _)]

theorem le_card_of_allocateClusterChain (hv : vol.WellFormed clusters)
    (hw : clusters + 2 = vol.fatWords) {a : Nat}
    (h : vol.allocateClusterChain n = some (a, vol')) :
    max n 1 ≤ (vol.freeClusters clusters).card := by
  simp only [allocateClusterChain, Option.bind_eq_bind, Option.bind_eq_some_iff] at h
  obtain ⟨b, hb, h⟩ := h
  obtain ⟨h0, hle, hlt⟩ := findFree_free hb
  have hmem : b ∈ vol.freeClusters clusters := mem_freeClusters.mpr ⟨by omega, h0⟩
  have hpos := Finset.card_pos.mpr ⟨b, hmem⟩
  split at h
  · simp only [Option.bind_eq_some_iff] at h
    obtain ⟨⟨last, vol₁⟩, hext, h⟩ := h
    have hv' : (vol.setFat b kEndOfClusterchain).WellFormed clusters := hv.congr rfl rfl
    have hrest := le_card_of_extendCluster hv' hw hext
    have hsub : (vol.setFat b kEndOfClusterchain).freeClusters clusters ⊆
        (vol.freeClusters clusters).erase b := by
      intro x hx
      obtain ⟨hr, hx0⟩ := mem_freeClusters.mp hx
      have hxb : x ≠ b := by
        rintro rfl
        simp [setFat, kEndOfClusterchain] at hx0
      refine Finset.mem_erase.mpr ⟨hxb, mem_freeClusters.mpr ⟨hr, ?_⟩⟩
      simpa [setFat, hxb] using hx0
    have hcard := Finset.card_le_card hsub
    rw [Finset.card_erase_of_mem hmem] at hcard
    omega
  · omega

/-- A first chain for an entry that has none. -/
theorem Separated.allocate (H : Separated clusters vol live) (hr : r ∈ live)
    (h0 : (vol.entry r).firstCluster = 0) {a : Nat}
    (h : vol.allocateClusterChain n = some (a, vol')) :
    let vol'' := vol'.setEntry r ((vol'.entry r).setFirstCluster a)
    Separated clusters vol'' live ∧ Keeps clusters vol vol'' live ∧
      ∃ cs, vol''.FileChain clusters (vol''.entry r).firstCluster cs ∧ a ∈ cs := by
  have hn := le_card_of_allocateClusterChain H.wf H.words h
  obtain ⟨b, rest, fat', -, hmem, hkeep, halloc, hchain, -⟩ := allocateClusterChain_spec H.wf hn
  rw [halloc] at h
  cases h
  have hfree : ∀ x ∈ a :: rest, vol.fat x = 0 := fun x hx => (mem_freeClusters.mp (hmem x hx)).2
  have hlt : a < 2 ^ 32 := by
    have := (hchain.in_range a List.mem_cons_self).2
    have := H.wf.not_end
    omega
  generalize hvol : ({ vol with fat := fat' } : Volume).setEntry r
    ((({ vol with fat := fat' } : Volume).entry r).setFirstCluster a) = vol''
  have hfirst : vol''.first (some r) = a := by
    rw [← hvol]
    simp only [first, setEntry, Function.update_self]
    exact DirectoryEntry.firstCluster_setFirstCluster _ hlt
  have hfat : vol''.fat = fat' := by
    rw [← hvol]
    rfl
  have hchain' : vol''.FileChain clusters (vol''.first (some r)) ([] ++ a :: rest) := by
    rw [hfirst]
    exact hchain.congr fun x _ => congrFun hfat x
  have hothers : ∀ o' ∈ owners live, o' ≠ some r → vol''.first o' = vol.first o' := by
    intro o' _ hne
    rw [← hvol]
    cases o' with
    | none => rfl
    | some r' =>
      have hrr : r' ≠ r := fun h => hne (congrArg some h)
      simp only [first, setEntry, Function.update_of_ne hrr]
  obtain ⟨Hsep, Hkeep⟩ := H.give (mem_owners.mpr hr) (.inl rfl) (fun _ => h0) hfree hchain' hothers
    (fun x _ hx => (congrFun hfat x).trans (hkeep x hx)) (fun x hx => hchain'.fat_ne_zero hx)
    (by rw [← hvol]; rfl) (by rw [← hvol]; rfl) (by rw [← hvol]; rfl)
  exact ⟨Hsep, Hkeep, _, hchain', List.mem_cons_self⟩

end Volume

namespace FileDescriptor

open Volume

variable {vol vol' : Volume} {clusters len : Nat} {live : List EntryRef} {fd fd' : FileDescriptor}

/-- The descriptor is for an entry in use and writes to a cluster of that entry's own chain. -/
structure OnChain (clusters : Nat) (vol : Volume) (live : List EntryRef) (fd : FileDescriptor) : Prop where
  entry : fd.fatEntry ∈ live
  cluster : fd.wrCluster = 0 ∨ ∃ cs,
    vol.FileChain clusters (vol.entry fd.fatEntry).firstCluster cs ∧ fd.wrCluster ∈ cs

theorem OnChain.keep (h : OnChain clusters vol live fd) (hk : Keeps clusters vol vol' live) :
    OnChain clusters vol' live fd := by
  refine ⟨h.entry, h.cluster.imp_right ?_⟩
  rintro ⟨cs, hcs, hmem⟩
  obtain ⟨cs', hcs', hsub⟩ := hk.chains _ (mem_owners.mpr h.entry) cs hcs
  exact ⟨cs', hcs', hsub hmem⟩

/-- An operation on a descriptor keeps the files apart, and the descriptor on its file. -/
def Safe (clusters : Nat) (live : List EntryRef) (vol : Volume) (fd : FileDescriptor)
    (vol' : Volume) (fd' : FileDescriptor) : Prop :=
  Separated clusters vol' live ∧ Keeps clusters vol vol' live ∧ fd'.fatEntry = fd.fatEntry ∧
    OnChain clusters vol' live fd'

theorem openWrite_safe (H : Separated clusters vol live) (hfd : OnChain clusters vol live fd)
    (h : openWrite vol fd len = some (vol', fd')) :
    Safe clusters live vol fd vol' fd' ∧ fd'.wrCluster ≠ 0 := by
  simp only [openWrite] at h
  split at h
  · split at h
    · rename_i hfirst
      cases h
      refine ⟨⟨H, .refl _ _ _, rfl, hfd.entry, .inr ?_⟩, hfirst⟩
      rcases H.chain _ (mem_owners.mpr hfd.entry) with ⟨-, h0⟩ | ⟨cs, hcs⟩
      · exact absurd h0 hfirst
      · exact ⟨cs, hcs, List.mem_of_mem_head? hcs.chain.head?_eq⟩
    · rename_i hfirst
      simp only [Option.bind_eq_bind, Option.bind_eq_some_iff] at h
      obtain ⟨⟨a, vol₁⟩, halloc, h⟩ := h
      cases h
      obtain ⟨Hsep, Hkeep, cs, hcs, hmem⟩ := H.allocate hfd.entry (not_not.mp hfirst) halloc
      refine ⟨⟨Hsep, Hkeep, rfl, hfd.entry, .inr ⟨cs, hcs, hmem⟩⟩, ?_⟩
      have hle : 2 ≤ a := (hcs.in_range _ hmem).1
      have hne : a ≠ 0 := by omega
      exact hne
  · rename_i hopen
    cases h
    exact ⟨⟨H, .refl _ _ _, rfl, hfd⟩, hopen⟩

theorem advance_safe {rest : Nat} (H : Separated clusters vol live)
    (hfd : OnChain clusters vol live fd) (hopen : fd.wrCluster ≠ 0) (hrest : 0 < rest)
    (h : advance vol fd rest = some (vol', fd')) :
    Safe clusters live vol fd vol' fd' ∧ fd'.wrCluster ≠ 0 := by
  obtain ⟨cs, hcs, hmem⟩ := hfd.cluster.resolve_left hopen
  obtain ⟨k, hk, hck⟩ := List.getElem_of_mem hmem
  have hnext := nextCluster_getElem hcs.chain hk
  rw [hck] at hnext
  -- the next cluster lies on a chain of data clusters
  have hpos {vol : Volume} {c x : Nat} {cs : List Nat} (hcs : vol.FileChain clusters c cs)
      (hx : x ∈ cs) : x ≠ 0 := by
    have := (hcs.in_range _ hx).1
    omega
  simp only [advance] at h
  split at h
  · split at h
    · rename_i hlast
      simp only [Option.bind_eq_bind, Option.bind_eq_some_iff] at h
      obtain ⟨⟨last, vol₁⟩, hext, h⟩ := h
      cases h
      obtain ⟨Hsep, Hkeep, hent, new, hlen, -, -, hchain⟩ :=
        H.extendCluster (mem_owners.mpr hfd.entry) hcs hmem hext
      have hn : 0 < new.length := by
        rw [hlen, numCluster]
        exact Nat.div_pos (by have := H.wf.bytesPerCluster_pos; omega) H.wf.bytesPerCluster_pos
      have hk' : k + 1 < (cs ++ new).length := by
        rw [List.length_append]
        omega
      have hnext' := nextCluster_getElem hchain.chain (Nat.lt_of_succ_lt hk')
      rw [List.getElem_append_left hk, hck, List.getD_eq_getElem _ _ hk'] at hnext'
      have hin : (cs ++ new)[k + 1] ∈ cs ++ new := List.getElem_mem hk'
      refine ⟨⟨Hsep, Hkeep, rfl, hfd.entry, .inr ⟨cs ++ new, hchain, ?_⟩⟩, ?_⟩
      · simp only [hnext']
        exact hin
      · simp only [hnext']
        exact hpos hchain hin
    · rename_i hgo
      cases h
      have hk' : k + 1 < cs.length := by
        by_contra hge
        rw [List.getD_eq_default _ _ (Nat.not_lt.mp hge)] at hnext
        exact hgo hnext
      rw [List.getD_eq_getElem _ _ hk'] at hnext
      have hin : cs[k + 1] ∈ cs := List.getElem_mem hk'
      refine ⟨⟨H, .refl _ _ _, rfl, hfd.entry, .inr ⟨cs, hcs, ?_⟩⟩, ?_⟩
      · simp only [hnext]
        exact hin
      · simp only [hnext]
        exact hpos hcs hin
  · cases h
    exact ⟨⟨H, .refl _ _ _, rfl, hfd⟩, hopen⟩

/-- The loop of `Write`. -/
theorem writeLoop_safe {fuel total n : Nat} {buf : Nat → UInt8} (H : Separated clusters vol live)
    (hfd : OnChain clusters vol live fd) (hopen : fd.wrCluster ≠ 0)
    (h : writeLoop buf len fuel total vol fd = some (n, vol', fd')) :
    Safe clusters live vol fd vol' fd' := by
  induction fuel generalizing total vol fd with
  | zero => cases h
  | succ fuel ih =>
    rw [writeLoop] at h
    split at h
    · rename_i hlt
      simp only [Option.bind_eq_bind, Option.bind_eq_some_iff] at h
      obtain ⟨⟨vol₁, fd₁⟩, hadv, hloop⟩ := h
      obtain ⟨⟨H₁, hkeep₁, hent₁, hfd₁⟩, hopen₁⟩ :=
        advance_safe H hfd hopen (Nat.sub_pos_of_lt hlt) hadv
      generalize hn : min len (vol₁.bytesPerCluster - fd₁.wrClusterOff) = n' at hloop
      generalize memcpy (vol₁.data fd₁.wrCluster) fd₁.wrClusterOff buf total n' = sec at hloop
      have Hdata : Separated clusters (vol₁.setData fd₁.wrCluster sec) live ∧
          Keeps clusters vol₁ (vol₁.setData fd₁.wrCluster sec) live :=
        H₁.congr rfl (fun o _ => by cases o <;> rfl) rfl rfl rfl
      obtain ⟨H₂, hkeep₂⟩ := Hdata
      have hfd₂ := hfd₁.keep hkeep₂
      have hfd₂' : OnChain clusters (vol₁.setData fd₁.wrCluster sec) live
          { fd₁ with wrClusterOff := fd₁.wrClusterOff + n' } := ⟨hfd₂.entry, hfd₂.cluster⟩
      obtain ⟨H₃, hkeep₃, hent₃, hfd₃⟩ := ih H₂ hfd₂' hopen₁ hloop
      exact ⟨H₃, (hkeep₁.trans hkeep₂).trans hkeep₃, hent₃.trans hent₁, hfd₃⟩
    · cases h
      exact ⟨H, .refl _ _ _, rfl, hfd⟩

theorem write_safe {n : Nat} {buf : Nat → UInt8} (H : Separated clusters vol live)
    (hfd : OnChain clusters vol live fd) (h : write vol fd buf len = some (n, vol', fd')) :
    Safe clusters live vol fd vol' fd' := by
  simp only [write, Option.bind_eq_bind, Option.bind_eq_some_iff] at h
  obtain ⟨⟨vol₁, fd₁⟩, hopen, ⟨total, vol₂, fd₂⟩, hloop, h⟩ := h
  cases h
  obtain ⟨⟨H₁, hkeep₁, hent₁, hfd₁⟩, hopen₁⟩ := openWrite_safe H hfd hopen
  obtain ⟨H₂, hkeep₂, hent₂, hfd₂⟩ := writeLoop_safe H₁ hfd₁ hopen₁ hloop
  -- the new size leaves the first clusters alone
  generalize (fd₂.wrOff + total) % 2 ^ 32 = size
  have Hsize : Separated clusters (vol₂.setEntry fd₂.fatEntry
      { vol₂.entry fd₂.fatEntry with fileSize := size }) live ∧
      Keeps clusters vol₂ (vol₂.setEntry fd₂.fatEntry
        { vol₂.entry fd₂.fatEntry with fileSize := size }) live := by
    refine H₂.congr rfl (fun o _ => ?_) rfl rfl rfl
    cases o with
    | none => rfl
    | some r =>
      by_cases hr : r = fd₂.fatEntry
      · subst hr
        simp [first, Volume.setEntry, DirectoryEntry.firstCluster]
      · simp only [first, Volume.setEntry, Function.update_of_ne hr]
  have hfd₃ := hfd₂.keep Hsize.2
  exact ⟨Hsize.1, (hkeep₁.trans hkeep₂).trans Hsize.2, hent₂.trans hent₁, hfd₃.entry, hfd₃.cluster⟩

end FileDescriptor

end MikanOS.Fat
