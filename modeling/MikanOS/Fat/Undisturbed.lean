import MikanOS.Fat.CreateFile
import MikanOS.Fat.Following

/-! # Writing leaves other files alone

`Write` of any length through a descriptor that earlier calls have left anywhere in its file: what changes on
the volume, and that nothing of another file does. -/

namespace MikanOS.Fat

open Bytes LinkedChain

namespace FileDescriptor

variable {vol vol' : Volume} {clusters p len : Nat} {cs cs' : List Nat} {fd : FileDescriptor}

/-- Bytes in one cluster of the chain. -/
theorem Frame.setData {r : EntryRef} {cluster : Nat} (sec : Nat → UInt8) (h : cluster ∈ cs) :
    Frame clusters r vol (vol.setData cluster sec) cs cs where
  rootCluster := rfl
  subset _ h := h
  new _ h h' := absurd h h'
  fat _ h := absurd rfl h
  data x hx := by
    by_contra hcs
    have hne : x ≠ cluster := fun heq => hcs (by rwa [heq])
    exact hx (Function.update_of_ne hne _ _)
  entry _ _ := rfl
  name := ⟨rfl, rfl⟩

/-- The size of the file. -/
theorem Frame.setSize {r : EntryRef} (size : Nat) :
    Frame clusters r vol (vol.setEntry r { vol.entry r with fileSize := size }) cs cs where
  rootCluster := rfl
  subset _ h := h
  new _ h h' := absurd h h'
  fat _ h := absurd rfl h
  data _ h := absurd rfl h
  entry _ h := Function.update_of_ne h _ _
  name := by simp [Volume.setEntry]

/-- The loop of `Write` for any length, with room for the bytes that are left. -/
theorem writeLoop_frame_spec {fuel total : Nat} (buf : Nat → UInt8) (hv : vol.WellFormed clusters)
    (H : Writing vol clusters fd cs p)
    (hroom : p + (len - total) ≤ (cs.length + (vol.freeClusters clusters).card) * vol.bytesPerCluster)
    (hfuel : len - total < fuel) :
    ∃ n vol' fd' cs', writeLoop buf len fuel total vol fd = some (total + n, vol', fd') ∧
      Writing vol' clusters fd' cs' (p + n) ∧ Grows vol vol' clusters cs cs' ∧
      fd'.fatEntry = fd.fatEntry ∧ fd'.wrOff = fd.wrOff ∧ Frame clusters fd.fatEntry vol vol' cs cs' := by
  induction fuel generalizing total vol fd cs p with
  | zero => exact absurd hfuel (Nat.not_lt_zero _)
  | succ fuel ih =>
    by_cases hlt : total < len
    · obtain ⟨vol₁, fd₁, cs₁, hadv, H₁, hoff, hgrow, -, hent, hwr, hframe⟩ :=
        advance_spec hv H (Nat.sub_pos_of_lt hlt) hroom
      have hb := hgrow.bytesPerCluster
      have hpos := hv.bytesPerCluster_pos
      generalize hn : min len (vol₁.bytesPerCluster - fd₁.wrClusterOff) = n
      have hn0 : 0 < n := by omega
      have hnoff : fd₁.wrClusterOff + n ≤ vol₁.bytesPerCluster := by omega
      have hturn := H₁.turn buf total hnoff
      generalize hsec : memcpy (vol₁.data fd₁.wrCluster) fd₁.wrClusterOff buf total n = sec at hturn
      obtain ⟨H₂, -⟩ := hturn
      obtain ⟨k, hk, hcl, -⟩ := H₁.cursor
      have hframe₂ : Frame clusters fd.fatEntry vol₁ (vol₁.setData fd₁.wrCluster sec) cs₁ cs₁ :=
        .setData sec (hcl ▸ List.getElem_mem hk)
      have hroom₂ : p + n + (len - (total + n)) ≤
          (cs₁.length + (vol₁.freeClusters clusters).card) * vol₁.bytesPerCluster := by
        have hle := H₂.le
        have hmul : cs₁.length * vol₁.bytesPerCluster ≤
            (cs₁.length + (vol₁.freeClusters clusters).card) * vol₁.bytesPerCluster :=
          Nat.mul_le_mul_right _ (Nat.le_add_right _ _)
        rw [← hgrow.total, ← hb] at hroom
        simp only [Volume.setData] at hle
        omega
      obtain ⟨m, vol', fd', cs', hloop, H', hgrow', hent', hwr', hframe'⟩ :=
        ih ((hgrow.wellFormed hv).setData fd₁.wrCluster sec) H₂ hroom₂ (by omega)
      refine ⟨n + m, vol', fd', cs', ?_, Nat.add_assoc .. ▸ H', hgrow.trans ⟨hgrow'.1, hgrow'.2, hgrow'.3, hgrow'.4⟩,
        hent'.trans hent, hwr'.trans hwr, (hframe.trans hframe₂).trans (hent ▸ hframe')⟩
      rw [writeLoop, if_pos hlt, hadv]
      simp only [Option.bind_eq_bind, Option.bind_some, hn, hsec]
      rw [← Nat.add_assoc]
      exact hloop
    · exact ⟨0, vol, fd, cs, by rw [writeLoop, if_neg hlt, Nat.add_zero], H, .refl _ _ _, rfl, rfl, .refl ..⟩

/-- `Write` of any length, with room for its bytes. -/
theorem write_frame_spec (hv : vol.WellFormed clusters) (H : Writer vol clusters fd cs fd.wrOff)
    (hroom : max (numCluster vol (fd.wrOff + len)) 1 ≤ cs.length + (vol.freeClusters clusters).card)
    (buf : Nat → UInt8) :
    ∃ n vol' fd' cs', write vol fd buf len = some (n, vol', fd') ∧ Writer vol' clusters fd' cs' fd'.wrOff ∧
      fd'.wrCluster ≠ 0 ∧ fd'.fatEntry = fd.fatEntry ∧ Grows vol vol' clusters cs cs' ∧
      Frame clusters fd.fatEntry vol vol' cs cs' := by
  obtain ⟨vol₁, fd₁, cs₁, hopen, H₁, hgrow₁, -, hent₁, hwr₁, hframe₁⟩ := openWrite_spec hv H hroom
  have hroom₁ : fd.wrOff + (len - 0) ≤
      (cs₁.length + (vol₁.freeClusters clusters).card) * vol₁.bytesPerCluster := by
    rw [hgrow₁.total, hgrow₁.bytesPerCluster]
    exact (numCluster_le_iff hv.bytesPerCluster_pos).mp (Nat.le_trans (Nat.le_max_left ..) hroom)
  obtain ⟨n, vol₂, fd₂, cs₂, hloop, H₂, hgrow₂, hent₂, hwr₂, hframe₂⟩ :=
    writeLoop_frame_spec buf (hgrow₁.wellFormed hv) H₁ hroom₁ (Nat.lt_succ_self len)
  have hent : fd₂.fatEntry = fd.fatEntry := hent₂.trans hent₁
  have hwr : fd₂.wrOff = fd.wrOff := hwr₂.trans hwr₁
  rw [Nat.zero_add] at hloop
  have hframe₃ : Frame clusters fd.fatEntry vol₂ (vol₂.setEntry fd₂.fatEntry
      { vol₂.entry fd₂.fatEntry with fileSize := (fd₂.wrOff + n) % 2 ^ 32 }) cs₂ cs₂ := by
    rw [hent]
    exact .setSize _
  refine ⟨n, vol₂.setEntry fd₂.fatEntry
      { vol₂.entry fd₂.fatEntry with fileSize := (fd₂.wrOff + n) % 2 ^ 32 },
    { fd₂ with wrOff := fd₂.wrOff + n }, cs₂, ?_, ?_, H₂.wrCluster_ne_zero, hent,
    hgrow₁.trans ⟨hgrow₂.1, hgrow₂.2, hgrow₂.3, hgrow₂.4⟩,
    (hframe₁.trans (hent₁ ▸ hframe₂)).trans hframe₃⟩
  · simp only [write, hopen, hloop, Option.bind_eq_bind, Option.bind_some]
    rfl
  · simp only [hwr]
    exact H₂.close _

end FileDescriptor

/-! ## Files beside the one that is written -/

namespace Volume

/-- The chain of the file of an entry; a file without a cluster has none. -/
def ChainOf (vol : Volume) (clusters : Nat) (r : EntryRef) (cs : List Nat) : Prop :=
  cs = [] ∧ (vol.entry r).firstCluster = 0 ∨ vol.FileChain clusters (vol.entry r).firstCluster cs

/-- The files of the entries have chains, and no two of them a common cluster. -/
structure Apart (clusters : Nat) (vol : Volume) (live : List EntryRef) : Prop where
  wf : vol.WellFormed clusters
  chain : ∀ r ∈ live, ∃ cs, vol.ChainOf clusters r cs
  disjoint : ∀ r ∈ live, ∀ r' ∈ live, r ≠ r' → ∀ cs cs', vol.ChainOf clusters r cs →
    vol.ChainOf clusters r' cs' → cs.Disjoint cs'

/-- Bytes of the cluster have changed: as data, or as entries of a directory. -/
def Changed (vol vol' : Volume) (c : Nat) : Prop :=
  vol'.data c ≠ vol.data c ∨ ∃ r : EntryRef, r.cluster = c ∧ vol'.entry r ≠ vol.entry r

variable {vol vol' : Volume} {clusters : Nat} {live : List EntryRef} {r r' : EntryRef} {cs cs' : List Nat}

theorem ChainOf.unique (h : vol.ChainOf clusters r cs) (h' : vol.ChainOf clusters r cs') : cs = cs' := by
  rcases h with ⟨rfl, h0⟩ | h
  · rcases h' with ⟨rfl, -⟩ | h'
    · rfl
    · exact absurd (h0 ▸ h') not_fileChain_zero
  · rcases h' with ⟨-, h0⟩ | h'
    · exact absurd (h0 ▸ h) not_fileChain_zero
    · exact h.unique h'

/-- No cluster of a file is free. -/
theorem ChainOf.fat_ne_zero {x : Nat} (h : vol.ChainOf clusters r cs) (hx : x ∈ cs) : vol.fat x ≠ 0 := by
  rcases h with ⟨rfl, -⟩ | h
  · exact absurd hx List.not_mem_nil
  · exact h.fat_ne_zero hx

/-- The chain of another file, and its contents, stay as they are. -/
theorem ChainOf.keep (h : vol.ChainOf clusters r' cs') (hframe : FileDescriptor.Frame clusters r vol vol' cs cs₁)
    (hne : r' ≠ r) (hapart : cs.Disjoint cs') : vol'.ChainOf clusters r' cs' ∧ ∀ x ∈ cs', vol'.data x = vol.data x := by
  have hfat : ∀ x ∈ cs', vol'.fat x = vol.fat x := by
    intro x hx
    by_contra hch
    rcases hframe.fat x hch with hfree | ⟨hcs, -⟩
    · exact h.fat_ne_zero hx (mem_freeClusters.mp hfree).2
    · exact hapart hcs hx
  have hdata : ∀ x ∈ cs', vol'.data x = vol.data x := by
    intro x hx
    by_contra hch
    by_cases hcs : x ∈ cs
    · exact hapart hcs hx
    · exact h.fat_ne_zero hx (mem_freeClusters.mp (hframe.new x (hframe.data x hch) hcs)).2
  refine ⟨?_, hdata⟩
  rw [ChainOf, hframe.entry r' hne]
  exact h.imp_right fun h => h.congr hfat

theorem contents_eq_of_data (hb : vol'.bytesPerCluster = vol.bytesPerCluster)
    (hdata : ∀ x ∈ cs, vol'.data x = vol.data x) {i : Nat} (hi : i < cs.length * vol.bytesPerCluster) :
    contents vol' cs i = contents vol cs i := by
  have hdiv : i / vol.bytesPerCluster < cs.length := Nat.div_lt_of_lt_mul (Nat.mul_comm .. ▸ hi)
  rw [contents, contents, hb, List.getD_eq_getElem _ _ hdiv, hdata _ (List.getElem_mem hdiv)]

end Volume

/-- A descriptor stays where it is in a file that keeps its chain. -/
theorem FileDescriptor.Writer.keep {vol vol' : Volume} {clusters p : Nat} {cs : List Nat} {fd : FileDescriptor}
    (H : Writer vol clusters fd cs p) (hb : vol'.bytesPerCluster = vol.bytesPerCluster)
    (hchain : vol'.ChainOf clusters fd.fatEntry cs) : Writer vol' clusters fd cs p := by
  refine ⟨H.wrOff, fun h => ?_, fun h => ?_⟩
  · obtain ⟨hp, hoff, -⟩ := H.closed h
    exact ⟨hp, hoff, hchain⟩
  · obtain ⟨hfile, hcursor, hoff⟩ := H.opened h
    refine ⟨hchain.resolve_left fun hnil => hfile.chain.ne_nil hnil.1, ?_, hb ▸ hoff⟩
    rw [hb]
    exact hcursor

namespace Volume

/-- What a `Write` to the file of the entry `r` does, whose chain `cs` has become `cs'`. -/
structure WritesOnly (clusters : Nat) (live : List EntryRef) (r : EntryRef) (vol vol' : Volume)
    (cs cs' : List Nat) : Prop where
  old : vol.ChainOf clusters r cs
  own : vol'.ChainOf clusters r cs'
  grows : cs <+: cs'
  changed : ∀ c, vol.Changed vol' c → c ∈ cs' ∨ c = r.cluster
  entries : ∀ r', r' ≠ r → vol'.entry r' = vol.entry r'
  name : (vol'.entry r).name = (vol.entry r).name ∧ (vol'.entry r).attr = (vol.entry r).attr
  fat : ∀ x, vol'.fat x ≠ vol.fat x → x ∈ vol.freeClusters clusters ∨ cs.getLast? = some x
  others : ∀ r' ∈ live, r' ≠ r → ∀ cs₁, vol.ChainOf clusters r' cs₁ → vol'.ChainOf clusters r' cs₁ ∧
    ∀ i < cs₁.length * vol.bytesPerCluster, contents vol' cs₁ i = contents vol cs₁ i

namespace Files

open FileDescriptor

/-- Files are opened, and a `Write` finds room for its bytes: in the clusters of the file, and in free ones. -/
def HasRoom (clusters : Nat) (s : Files) : Event → Prop
  | .createFile _ => False
  | .openFile _ => True
  | .write i _ len => ∀ fd, s.fds[i]? = some fd → ∀ cs, s.vol.ChainOf clusters fd.fatEntry cs →
    max (numCluster s.vol (fd.wrOff + len)) 1 ≤ cs.length + (s.vol.freeClusters clusters).card

/-- The files are apart, and each descriptor stands in the chain of its own file. -/
structure Writers (clusters : Nat) (s : Files) : Prop where
  apart : Apart clusters s.vol s.live
  entry : ∀ fd ∈ s.fds, fd.fatEntry ∈ s.live
  writer : ∀ fd ∈ s.fds, ∀ cs, s.vol.ChainOf clusters fd.fatEntry cs →
    Writer s.vol clusters fd cs fd.wrOff

variable {clusters : Nat} {s s' : Files} {fd : FileDescriptor} {i len : Nat} {live : List EntryRef} {vol : Volume}

/-- `Write` in such a state. -/
theorem Writers.write_spec (H : Writers clusters s) (hfd : s.fds[i]? = some fd) {buf : Nat → UInt8}
    (hroom : HasRoom clusters s (.write i buf len)) :
    ∃ n vol' fd' cs cs', fd.write s.vol buf len = some (n, vol', fd') ∧
      WritesOnly clusters s.live fd.fatEntry s.vol vol' cs cs' ∧
      Writers clusters { s with vol := vol', fds := s.fds.set i fd' } := by
  have hmem := List.mem_of_getElem? hfd
  have hlive := H.entry fd hmem
  obtain ⟨cs, hcs⟩ := H.apart.chain _ hlive
  obtain ⟨n, vol', fd', cs', hwrite, Hw, hopen, hent, hgrow, hframe⟩ :=
    write_frame_spec H.apart.wf (H.writer fd hmem cs hcs) (hroom fd hfd cs hcs) buf
  have hchain : vol'.FileChain clusters (vol'.entry fd.fatEntry).firstCluster cs' := by
    rw [← hent]
    exact (Hw.opened hopen).file
  -- the files beside the written one
  have hothers : ∀ r' ∈ s.live, r' ≠ fd.fatEntry → ∀ cs₁, s.vol.ChainOf clusters r' cs₁ →
      vol'.ChainOf clusters r' cs₁ ∧ ∀ x ∈ cs₁, vol'.data x = s.vol.data x := by
    intro r' hr' hne cs₁ hcs₁
    exact hcs₁.keep hframe hne (H.apart.disjoint _ hlive r' hr' hne.symm cs cs₁ hcs hcs₁)
  have hback : ∀ r' ∈ s.live, r' ≠ fd.fatEntry → ∀ cs₁, vol'.ChainOf clusters r' cs₁ →
      s.vol.ChainOf clusters r' cs₁ := by
    intro r' hr' hne cs₁ hcs₁
    obtain ⟨cs₂, hcs₂⟩ := H.apart.chain r' hr'
    rwa [hcs₁.unique (hothers r' hr' hne cs₂ hcs₂).1]
  have hapart : ∀ r' ∈ s.live, r' ≠ fd.fatEntry → ∀ cs₁ cs₂, vol'.ChainOf clusters r' cs₁ →
      vol'.ChainOf clusters fd.fatEntry cs₂ → cs₁.Disjoint cs₂ := by
    intro r' hr' hne cs₁ cs₂ hcs₁ hcs₂ x hx hx₂
    have hold := hback r' hr' hne cs₁ hcs₁
    rw [hcs₂.unique (.inr hchain)] at hx₂
    by_cases hxcs : x ∈ cs
    · exact H.apart.disjoint _ hlive r' hr' hne.symm cs cs₁ hcs hold hxcs hx
    · exact hold.fat_ne_zero hx (mem_freeClusters.mp (hframe.new x hx₂ hxcs)).2
  refine ⟨n, vol', fd', cs, cs', hwrite, ⟨hcs, .inr hchain, hgrow.grows, fun c hc => ?_, hframe.entry, hframe.name,
    fun x hx => ?_, fun r' hr' hne cs₁ hcs₁ => ?_⟩, ⟨hgrow.wellFormed H.apart.wf, fun r' hr' => ?_,
    fun r₁ h₁ r₂ h₂ hne cs₁ cs₂ hcs₁ hcs₂ => ?_⟩, fun f hf => ?_, fun f hf cs₁ hcs₁ => ?_⟩
  · rcases hc with hdata | ⟨r', rfl, hr'⟩
    · exact .inl (hframe.data c hdata)
    · by_contra! hno
      exact hr' (hframe.entry r' fun heq => hno.2 (heq ▸ rfl))
  · refine (hframe.fat x hx).imp_right ?_
    rintro ⟨hxcs, hend⟩
    rcases hcs with ⟨rfl, -⟩ | hcs
    · exact absurd hxcs List.not_mem_nil
    · exact hcs.chain.getLast?_of_isEnd hxcs hend
  · obtain ⟨hkeep, hdata⟩ := hothers r' hr' hne cs₁ hcs₁
    exact ⟨hkeep, fun i hi => contents_eq_of_data hgrow.bytesPerCluster hdata hi⟩
  · by_cases hr : r' = fd.fatEntry
    · exact ⟨cs', hr ▸ .inr hchain⟩
    · obtain ⟨cs₁, hcs₁⟩ := H.apart.chain r' hr'
      exact ⟨cs₁, (hothers r' hr' hr cs₁ hcs₁).1⟩
  · by_cases hr₁ : r₁ = fd.fatEntry
    · subst hr₁
      exact (hapart r₂ h₂ hne.symm cs₂ cs₁ hcs₂ hcs₁).symm
    · by_cases hr₂ : r₂ = fd.fatEntry
      · subst hr₂
        exact hapart r₁ h₁ hne cs₁ cs₂ hcs₁ hcs₂
      · exact H.apart.disjoint r₁ h₁ r₂ h₂ hne cs₁ cs₂ (hback r₁ h₁ hr₁ cs₁ hcs₁)
          (hback r₂ h₂ hr₂ cs₂ hcs₂)
  · rcases List.mem_or_eq_of_mem_set hf with hf | rfl
    · exact H.entry f hf
    · rw [hent]
      exact hlive
  · rcases List.mem_or_eq_of_mem_set hf with hf | rfl
    · by_cases hr : f.fatEntry = fd.fatEntry
      · -- another descriptor of the same file
        rw [hr] at hcs₁
        rw [hcs₁.unique (.inr hchain)]
        refine (H.writer f hf cs (hr ▸ hcs)).grow hgrow ?_
        rw [hr]
        exact hchain
      · have hold := hback _ (H.entry f hf) hr cs₁ hcs₁
        exact (H.writer f hf cs₁ hold).keep hgrow.bytesPerCluster hcs₁
    · rw [hent] at hcs₁
      rw [hcs₁.unique (.inr hchain)]
      exact Hw

theorem Writers.start (H : Apart clusters vol live) : Writers clusters ⟨vol, live, []⟩ :=
  ⟨H, fun _ h => absurd h List.not_mem_nil, fun _ h => absurd h List.not_mem_nil⟩

theorem Writers.step (H : Writers clusters s) {e : Event} (hroom : HasRoom clusters s e) (hs : s.step e = some s') :
    Writers clusters s' := by
  cases e with
  | createFile path => exact absurd hroom id
  | openFile r =>
    obtain ⟨⟨hr, -⟩, hs⟩ := Option.ite_none_right_eq_some.mp hs
    cases hs
    refine ⟨H.apart, List.forall_mem_append.mpr ⟨H.entry, List.forall_mem_singleton.mpr hr⟩,
      List.forall_mem_append.mpr ⟨H.writer, List.forall_mem_singleton.mpr fun cs hcs => ?_⟩⟩
    exact ⟨rfl, fun _ => ⟨rfl, rfl, hcs⟩, fun h => absurd rfl h⟩
  | write i buf len =>
    simp only [Files.step, Option.bind_eq_bind, Option.bind_eq_some_iff] at hs
    obtain ⟨fd, hfd, ⟨n, vol', fd'⟩, hwrite, hs⟩ := hs
    obtain ⟨_, _, _, _, _, hwrite', -, H'⟩ := H.write_spec hfd hroom
    cases hwrite.symm.trans hwrite'
    cases hs
    exact H'

theorem apart_emptyVolume : Apart 126 emptyVolume [⟨2, 0⟩] := by
  refine ⟨emptyVolume_wellFormed, fun r _ => ⟨[], .inl ⟨rfl, ?_⟩⟩, fun r hr r' hr' hne => ?_⟩
  · show (⟨.replicate 11 0, 0, 0, 0, 0⟩ : DirectoryEntry).firstCluster = 0
    decide
  · exact absurd ((List.mem_singleton.mp hr).trans (List.mem_singleton.mp hr').symm) hne

/-- A file of the empty volume is opened. -/
theorem run_openFile : system.Run ⟨emptyVolume, [⟨2, 0⟩], []⟩ [.openFile ⟨2, 0⟩]
    ⟨emptyVolume, [⟨2, 0⟩], [{ fatEntry := ⟨2, 0⟩ }]⟩ := .single rfl

theorem hasRoom_openFile (pre : List Event) (e : Event) (post : List Event) (t : Files)
    (hes : [Event.openFile ⟨2, 0⟩] = pre ++ e :: post)
    (_ : system.Run ⟨emptyVolume, [⟨2, 0⟩], []⟩ pre t) : HasRoom 126 t e := by
  cases pre with
  | nil =>
    cases hes
    trivial
  | cons a pre =>
    have hlen := congrArg List.length hes
    simp at hlen

theorem hasRoom_write : HasRoom 126 ⟨emptyVolume, [⟨2, 0⟩], [{ fatEntry := ⟨2, 0⟩ }]⟩
    (.write 0 (fun _ => 1) 1) := by
  intro fd hfd cs _
  cases hfd
  exact Nat.le_trans (by decide +kernel : max (numCluster emptyVolume (0 + 1)) 1 ≤
    (emptyVolume.freeClusters 126).card) (Nat.le_add_left _ _)

end Files

end Volume

end MikanOS.Fat
