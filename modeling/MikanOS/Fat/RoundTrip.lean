import MikanOS.Fat.Writing

/-! # Writing a file and reading it back

A file is written through one descriptor and read through a fresh one. `Write` bounds the bytes of
every turn of its loop by the whole length, so a request that crosses from one cluster into the
middle of another returns more than its length; `Read` bounds them by what is left. -/

namespace MikanOS.Fat.FileDescriptor

open Bytes LinkedChain

variable {vol vol' : Volume} {clusters p : Nat} {cs : List Nat} {fd fd' : FileDescriptor}
  {r : EntryRef}

/-- A buffer with the number of bytes that are meant, and whatever lies behind them. -/
abbrev Buffer := (Nat → UInt8) × Nat

/-- `Write` calls one after the other: what they return. -/
def writeAll (vol : Volume) (fd : FileDescriptor) :
    List Buffer → Option (List Nat × Volume × FileDescriptor)
  | [] => some ([], vol, fd)
  | (buf, len) :: calls => do
    let (n, vol, fd) ← write vol fd buf len
    let (ns, vol, fd) ← writeAll vol fd calls
    pure (n :: ns, vol, fd)

/-- The byte strings, one behind the other. -/
def bytes (calls : List Buffer) : List UInt8 := calls.flatMap fun call => slice call.1 0 call.2

/-- The number of bytes of the calls. -/
def size (calls : List Buffer) : Nat := (calls.map Prod.snd).sum

/-- The file of the entry is empty: its size is 0, and it has no cluster or a chain of them. -/
structure EmptyFile (vol : Volume) (clusters : Nat) (r : EntryRef) (cs : List Nat) : Prop where
  fileSize : (vol.entry r).fileSize = 0
  chain : cs = [] ∧ (vol.entry r).firstCluster = 0 ∨
    vol.FileChain clusters (vol.entry r).firstCluster cs

/-- Each `Write` returns its length, the size becomes the sum of the lengths, and a fresh descriptor
reads the written bytes in whatever portions. -/
def RoundTrips (vol : Volume) (r : EntryRef) (calls : List Buffer) : Prop :=
  ∃ vol' fd', writeAll vol { fatEntry := r } calls = some (calls.map Prod.snd, vol', fd') ∧
    (vol'.entry r).fileSize = size calls ∧
    ∀ reads : List Buffer,
      readAll vol' { fatEntry := r } reads = some ((bytes calls).take (size reads))

/-- Every call stays in one cluster or ends with one, the first from byte `p` on. -/
def AllEndInCluster (b : Nat) : Nat → List Buffer → Prop
  | _, [] => True
  | p, (_, len) :: calls => EndsInCluster b p len ∧ AllEndInCluster b (p + len) calls

/-- Writes that stay in one cluster or end with one append their bytes to the file. -/
theorem writeAll_spec (hv : vol.WellFormed clusters) (H : Writer vol clusters fd cs p)
    {calls : List Buffer} (hend : AllEndInCluster vol.bytesPerCluster p calls)
    (hfree : max (numCluster vol (p + size calls)) 1 ≤
      cs.length + (vol.freeClusters clusters).card) :
    ∃ vol' fd' cs', writeAll vol fd calls = some (calls.map Prod.snd, vol', fd') ∧
      Writer vol' clusters fd' cs' (p + size calls) ∧ Grows vol vol' clusters cs cs' ∧
      fd'.fatEntry = fd.fatEntry ∧ (∀ i < p, contents vol' cs' i = contents vol cs i) ∧
      slice (contents vol' cs') p (size calls) = bytes calls ∧
      (calls ≠ [] → (vol'.entry fd.fatEntry).fileSize = (p + size calls) % 2 ^ 32 ∧
        fd'.wrCluster ≠ 0) := by
  induction calls generalizing vol fd cs p with
  | nil =>
    exact ⟨vol, fd, cs, rfl, H, .refl _ _ _, rfl, fun _ _ => rfl, rfl, fun h => absurd rfl h⟩
  | cons call calls ih =>
    obtain ⟨buf, len⟩ := call
    obtain ⟨hend₁, hends⟩ := hend
    have hsize : size ((buf, len) :: calls) = len + size calls := List.sum_cons
    have hpos := hv.bytesPerCluster_pos
    have hfree₁ : max (numCluster vol (p + len)) 1 ≤
        cs.length + (vol.freeClusters clusters).card := by
      have hle : numCluster vol (p + len) ≤ numCluster vol (p + size ((buf, len) :: calls)) := by
        rw [numCluster_le_iff hpos]
        refine Nat.le_trans ?_ (le_numCluster_mul hpos _)
        omega
      omega
    obtain ⟨vol₁, fd₁, cs₁, hwrite, H₁, hgrow, hent, hkeep, hbytes, hsize₁, hopened⟩ :=
      write_spec hv H hend₁ hfree₁ buf
    have hb := hgrow.bytesPerCluster
    have hnum : numCluster vol₁ (p + len + size calls) =
        numCluster vol (p + size ((buf, len) :: calls)) := by
      rw [numCluster, numCluster, hb, hsize, Nat.add_assoc p]
    obtain ⟨vol', fd', cs', hall, H', hgrow', hent', hkeep', hbytes', hlast⟩ :=
      ih (hgrow.wellFormed hv) H₁ (hb ▸ hends) (by rw [hgrow.total, hnum]; exact hfree)
    rw [Nat.add_assoc, ← hsize] at H'
    refine ⟨vol', fd', cs', ?_, H', hgrow.trans hgrow', hent'.trans hent, fun i hi => ?_, ?_,
      fun _ => ?_⟩
    · simp only [writeAll, hwrite, hall, Option.bind_eq_bind, Option.bind_some]
      rfl
    · rw [hkeep' i (by omega), hkeep i hi]
    · rw [hsize, slice_add, hbytes']
      refine congrArg (· ++ _) (Eq.trans ?_ hbytes)
      exact slice_congr fun i hi => hkeep' _ (by omega)
    · by_cases hnil : calls = []
      · subst hnil
        cases hall
        rw [hsize]
        exact ⟨hent ▸ hsize₁, hopened⟩
      · obtain ⟨hsize', hopened'⟩ := hlast hnil
        rw [hsize, ← Nat.add_assoc, ← hent]
        exact ⟨hsize', hopened'⟩

/-- If every `Write` returns its length, every request stays in one cluster or ends with one. -/
theorem allEndInCluster_of_writeAll {calls : List Buffer} (hpos : 0 < vol.bytesPerCluster)
    (hoff : fd.wrClusterOff ≤ vol.bytesPerCluster)
    (hp : p % vol.bytesPerCluster = fd.wrClusterOff % vol.bytesPerCluster)
    (h : writeAll vol fd calls = some (calls.map Prod.snd, vol', fd')) :
    AllEndInCluster vol.bytesPerCluster p calls := by
  induction calls generalizing vol fd p with
  | nil => trivial
  | cons call calls ih =>
    obtain ⟨buf, len⟩ := call
    simp only [writeAll, Option.bind_eq_bind, Option.bind_eq_some_iff] at h
    obtain ⟨⟨n, vol₁, fd₁⟩, hwrite, ⟨ns, vol₂, fd₂⟩, hall, h⟩ := h
    cases h
    obtain ⟨hend, hb, hoff', hp'⟩ := endsInCluster_of_write hpos hoff hp hwrite
    refine ⟨hend, ?_⟩
    rw [← hb] at hoff' hp' hpos ⊢
    exact ih hpos hoff' hp' hall

/-- On a volume with enough free clusters an empty file round-trips exactly if it stays below 4 GiB
and every `Write` stays in one cluster or ends with one. -/
theorem roundTrips_iff (hv : vol.WellFormed clusters) (he : EmptyFile vol clusters r cs)
    (calls : List Buffer) (hfree : max (numCluster vol (size calls)) 1 ≤
      cs.length + (vol.freeClusters clusters).card) :
    RoundTrips vol r calls ↔
      size calls < 2 ^ 32 ∧ AllEndInCluster vol.bytesPerCluster 0 calls := by
  have H : Writer vol clusters { fatEntry := r } cs 0 :=
    ⟨rfl, fun _ => ⟨rfl, rfl, he.chain⟩, fun h => absurd rfl h⟩
  have hspec : AllEndInCluster vol.bytesPerCluster 0 calls → _ := fun hend =>
    writeAll_spec hv H hend (by rw [Nat.zero_add]; exact hfree)
  simp only [Nat.zero_add] at hspec
  -- the size of the file after the calls
  have hsize : ∀ vol' fd', writeAll vol { fatEntry := r } calls =
      some (calls.map Prod.snd, vol', fd') → AllEndInCluster vol.bytesPerCluster 0 calls →
      (vol'.entry r).fileSize = size calls % 2 ^ 32 := by
    intro vol' fd' hall hend
    obtain ⟨vol₁, fd₁, cs₁, hall₁, -, -, -, -, -, hlast⟩ := hspec hend
    cases hall.symm.trans hall₁
    by_cases hnil : calls = []
    · subst hnil
      cases hall
      exact he.fileSize
    · exact (hlast hnil).1
  constructor
  · intro h
    obtain ⟨vol', fd', hall, hfile, -⟩ := h
    have hend := allEndInCluster_of_writeAll hv.bytesPerCluster_pos (Nat.zero_le _) rfl hall
    rw [hsize vol' fd' hall hend] at hfile
    exact ⟨hfile ▸ Nat.mod_lt _ (by decide), hend⟩
  · intro h
    obtain ⟨hlt, hend⟩ := h
    obtain ⟨vol', fd', cs', hall, H', hgrow, hent, -, hbytes, -⟩ := hspec hend
    have hfile := hsize vol' fd' hall hend
    rw [Nat.mod_eq_of_lt hlt] at hfile
    refine ⟨vol', fd', hall, hfile, fun reads => ?_⟩
    have hof : FileOf vol' clusters r cs' := by
      have hof := H'.fileOf (by rw [hent]; exact hfile) hlt
      rwa [hent] at hof
    rw [readAll_spec (hgrow.wellFormed hv) hof (Reader.fresh vol' cs' r) (Nat.zero_le _) reads, hfile,
      Nat.sub_zero, ← hbytes, take_slice]
    rfl

/-- A volume of 126 clusters of 512 bytes with an empty root directory in cluster 2. -/
def emptyVolume : Volume where
  bytesPerCluster := 512
  rootCluster := 2
  fatWords := 128
  fat := fun c => if c < 3 then kEndOfClusterchain else 0
  data := fun _ _ => 0
  entry := fun _ => ⟨.replicate 11 0, 0, 0, 0, 0⟩

theorem emptyVolume_wellFormed : emptyVolume.WellFormed 126 := ⟨by decide, by decide, by decide⟩

theorem emptyVolume_emptyFile : EmptyFile emptyVolume 126 ⟨2, 0⟩ [] := ⟨rfl, .inl ⟨rfl, rfl⟩⟩

/-- A short request, one up to the end of the second cluster, and one within the third. -/
theorem roundTrips_iff_emptyVolume :
    let calls : List Buffer := [(fun _ => 1, 300), (fun _ => 2, 724), (fun _ => 3, 100)]
    RoundTrips emptyVolume ⟨2, 0⟩ calls ↔ size calls < 2 ^ 32 ∧ AllEndInCluster 512 0 calls :=
  roundTrips_iff emptyVolume_wellFormed emptyVolume_emptyFile _ (by decide +kernel)

/-- A single `Write` of 600 bytes on clusters of 512 bytes returns 1024. -/
theorem not_roundTrips_crossing :
    (emptyVolume.WellFormed 126 ∧ EmptyFile emptyVolume 126 ⟨2, 0⟩ [] ∧
      max (numCluster emptyVolume 600) 1 ≤ (emptyVolume.freeClusters 126).card) ∧
    (write emptyVolume { fatEntry := ⟨2, 0⟩ } (fun _ => 1) 600).map Prod.fst = some 1024 ∧
    ¬ RoundTrips emptyVolume ⟨2, 0⟩ [(fun _ => 1, 600)] := by
  have hwrite : (write emptyVolume { fatEntry := ⟨2, 0⟩ } (fun _ => 1) 600).map Prod.fst =
      some 1024 := by decide +kernel
  refine ⟨⟨emptyVolume_wellFormed, emptyVolume_emptyFile, by decide +kernel⟩, hwrite, fun h => ?_⟩
  obtain ⟨vol', fd', hall, -⟩ := h
  simp only [writeAll, Option.bind_eq_bind, Option.bind_eq_some_iff] at hall
  obtain ⟨⟨n, vol₁, fd₁⟩, hw, ⟨ns, vol₂, fd₂⟩, -, hall⟩ := hall
  rw [hw] at hwrite
  cases hwrite
  cases hall

end MikanOS.Fat.FileDescriptor
