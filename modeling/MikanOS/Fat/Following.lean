import MikanOS.Fat.EndOfFile

/-! # Reading a file that grows

Descriptors of one directory entry, through which the file is read while bytes are appended to it. `Read` goes
on to the next cluster at once when it has reached the end of one, and at the end of the chain to
`kEndOfClusterchain`, where it stays when the chain becomes longer. -/

namespace MikanOS.Fat

open Bytes

namespace FileDescriptor

variable {vol vol' : Volume} {clusters len q size size' : Nat} {cs cs' : List Nat} {fd fd' : FileDescriptor}
  {buf buf' : Nat → UInt8}

/-- The writing side of a descriptor. -/
def writeSide (fd : FileDescriptor) : EntryRef × Nat × Nat × Nat :=
  (fd.fatEntry, fd.wrOff, fd.wrCluster, fd.wrClusterOff)

theorem readLoop_writeSide {fuel total n : Nat} (h : readLoop vol len fuel total buf fd = some (n, buf', fd')) :
    fd'.writeSide = fd.writeSide := by
  induction fuel generalizing total buf fd with
  | zero => cases h
  | succ fuel ih =>
    rw [readLoop] at h
    split at h
    · refine (ih h).trans ?_
      split <;> rfl
    · cases h
      rfl

theorem read_writeSide {n : Nat} (h : read vol fd buf len = some (n, buf', fd')) :
    fd'.writeSide = fd.writeSide := by
  obtain ⟨⟨total, buf₁, fd₁⟩, hloop, h⟩ := Option.bind_eq_some_iff.mp h
  cases h
  refine (readLoop_writeSide hloop).trans ?_
  split <;> rfl

/-- Of a descriptor only the writing side matters for writing. -/
theorem Writer.congr (H : Writer vol clusters fd cs fd.wrOff) (h : fd'.writeSide = fd.writeSide) :
    Writer vol clusters fd' cs fd'.wrOff := by
  obtain ⟨r, rdOff, rdCluster, rdClusterOff, wrOff, wrCluster, wrClusterOff⟩ := fd'
  cases h
  refine ⟨rfl, H.closed, fun h => ?_⟩
  have H' := H.opened h
  exact ⟨H'.file, H'.cursor, H'.off_le⟩

/-- A fresh descriptor of a file. -/
theorem Writer.fresh {r : EntryRef} (hf : FileOf vol clusters r cs) :
    Writer vol clusters { fatEntry := r } cs 0 := by
  refine ⟨rfl, fun _ => ⟨rfl, rfl, ?_⟩, fun h => absurd rfl h⟩
  by_cases hcs : cs = []
  · exact .inl ⟨hcs, hf.none hcs⟩
  · exact .inr (hf.chain hcs)

/-- Descriptors that have written in front of the end stay where they are when the chain grows. -/
theorem Writer.grow {p : Nat} (H : Writer vol clusters fd cs p) (hgrow : Grows vol vol' clusters cs cs')
    (hfile : vol'.FileChain clusters (vol'.entry fd.fatEntry).firstCluster cs') : Writer vol' clusters fd cs' p := by
  refine ⟨H.wrOff, fun h => ?_, fun h => ?_⟩
  · obtain ⟨hp, hoff, -⟩ := H.closed h
    exact ⟨hp, hoff, .inr hfile⟩
  · have H' := H.opened h
    obtain ⟨k, hk, hcl, hp⟩ := H'.cursor
    obtain ⟨new, rfl⟩ := hgrow.grows
    refine ⟨hfile, ⟨k, ?_, ?_, hgrow.bytesPerCluster ▸ hp⟩, hgrow.bytesPerCluster ▸ H'.off_le⟩
    · rw [List.length_append]
      omega
    · rw [hcl, List.getElem_append_left hk]

/-- The descriptor can be read from, or it has stopped at the end of the chain as it was. -/
structure Follower (vol : Volume) (cs : List Nat) (size : Nat) (fd : FileDescriptor) : Prop where
  rdOff_le : fd.rdOff ≤ size
  reader : Reader vol cs fd fd.rdOff ∨ fd.rdCluster = kEndOfClusterchain

theorem Follower.congr (H : Follower vol cs size fd) (h : fd'.readSide = fd.readSide) :
    Follower vol cs size fd' := by
  obtain ⟨r, rdOff, rdCluster, rdClusterOff, wrOff, wrCluster, wrClusterOff⟩ := fd'
  cases h
  refine ⟨H.rdOff_le, H.reader.imp_left fun H' => ⟨rfl, H'.start, fun h => ?_⟩⟩
  exact ⟨(H'.reading h).rdCluster, (H'.reading h).rdClusterOff⟩

/-- The chain grows behind a reader: it can go on, unless it stands at the old end of the chain. -/
theorem Follower.grow (H : Follower vol cs size fd) (hgrow : Grows vol vol' clusters cs cs') (hsize : size ≤ size') :
    Follower vol' cs' size' fd := by
  refine ⟨H.rdOff_le.trans hsize, ?_⟩
  rcases H.reader with H' | hend
  · by_cases h0 : fd.rdCluster = 0
    · exact .inl ⟨rfl, H'.start, fun h => absurd h0 h⟩
    · obtain ⟨hcl, hoff⟩ := H'.reading h0
      rcases Nat.lt_or_ge (fd.rdOff / vol.bytesPerCluster) cs.length with hlt | hge
      · refine .inl ⟨rfl, H'.start, fun _ => ⟨?_, ?_⟩⟩
        · obtain ⟨new, rfl⟩ := hgrow.grows
          rw [hgrow.bytesPerCluster, List.getD_append _ _ _ _ hlt, hcl]
        · rw [hgrow.bytesPerCluster, hoff]
      · rw [List.getD_eq_default _ _ hge] at hcl
        exact .inr hcl
  · exact .inr hend

/-- A `Read` that has nothing to return leaves an opened descriptor as it is. -/
theorem read_nothing (h0 : fd.rdCluster ≠ 0) (hoff : fd.rdOff < 2 ^ 64) (hnothing : min len (left vol fd) = 0) :
    read vol fd buf len = some (0, buf, fd) := by
  rw [left] at hnothing
  simp only [read, if_neg h0, hnothing, readLoop, Nat.lt_irrefl, if_false, Option.bind_eq_bind,
    Option.bind_some, Nat.add_zero, Nat.mod_eq_of_lt hoff]
  rfl

end FileDescriptor

open FileDescriptor

/-! ## Readers and writers of one file -/

/-- A call of `Read`: its offset and length, the contents of the file at that moment, and the bytes that it
returned. -/
structure ReadResult where
  offset : Nat
  len : Nat
  content : List UInt8
  bytes : List UInt8

/-- The bytes are those of the contents at the offset. -/
def ReadResult.Current (c : ReadResult) : Prop := c.bytes = (c.content.drop c.offset).take c.len

/-- The descriptors of an entry, what has been appended to its file, and the calls of `Read` so far. -/
structure GrowingFile where
  vol : Volume
  fds : List FileDescriptor
  content : List UInt8
  reads : List ReadResult

namespace GrowingFile

inductive Event where
  | openFile
  | read (i : Nat) (buf : Nat → UInt8) (len : Nat)
  | write (i : Nat) (buf : Nat → UInt8) (len : Nat)

/-- One event with the descriptors of the entry `r`, if its call returns. -/
def step (r : EntryRef) (s : GrowingFile) : Event → Option GrowingFile
  | .openFile => some { s with fds := s.fds ++ [{ fatEntry := r }] }
  | .read i buf len => do
    let fd ← s.fds[i]?
    let (n, buf, fd') ← fd.read s.vol buf len
    let result : ReadResult := ⟨fd.rdOff, len, s.content, slice buf 0 n⟩
    some { s with fds := s.fds.set i fd', reads := s.reads ++ [result] }
  | .write i buf len => do
    let fd ← s.fds[i]?
    let (_, vol, fd') ← fd.write s.vol buf len
    some { s with vol, fds := s.fds.set i fd', content := s.content ++ slice buf 0 len }

def system (r : EntryRef) : Transition.System GrowingFile Event := ⟨step r⟩

/-- The file before it is opened. -/
def start (vol : Volume) (r : EntryRef) (cs : List Nat) : GrowingFile :=
  ⟨vol, [], slice (contents vol cs) 0 (vol.entry r).fileSize, []⟩

/-- A `Write` appends to the file, does not cross the boundary of a cluster, and finds enough room on the
volume and in the 32 bits of the size. -/
def Appends (clusters : Nat) (r : EntryRef) (s : GrowingFile) : Event → Prop
  | .openFile => True
  | .read _ _ _ => True
  | .write i _ len => ∀ fd, s.fds[i]? = some fd →
    fd.wrOff = (s.vol.entry r).fileSize ∧ EndsInCluster s.vol.bytesPerCluster fd.wrOff len ∧
      fd.wrOff + len < 2 ^ 32 ∧ ∀ cs, FileOf s.vol clusters r cs →
        max (numCluster s.vol (fd.wrOff + len)) 1 ≤ cs.length + (s.vol.freeClusters clusters).card

/-- A `Read` through a descriptor that has stopped at the end of a chain has nothing to return. -/
def NothingBehind (r : EntryRef) (s : GrowingFile) : Event → Prop
  | .openFile => True
  | .read i _ len => ∀ fd, s.fds[i]? = some fd → fd.rdCluster = kEndOfClusterchain →
    len = 0 ∨ fd.rdOff = (s.vol.entry r).fileSize
  | .write _ _ _ => True

/-- The file with the chain `cs`, and where its descriptors stand. -/
structure Inv (clusters : Nat) (r : EntryRef) (cs : List Nat) (s : GrowingFile) : Prop where
  wf : s.vol.WellFormed clusters
  file : FileOf s.vol clusters r cs
  content : s.content = slice (contents s.vol cs) 0 (s.vol.entry r).fileSize
  fatEntry : ∀ fd ∈ s.fds, fd.fatEntry = r
  follower : ∀ fd ∈ s.fds, Follower s.vol cs (s.vol.entry r).fileSize fd
  writer : ∀ fd ∈ s.fds, Writer s.vol clusters fd cs fd.wrOff
  reads : ∀ c ∈ s.reads, c.Current

variable {clusters : Nat} {r : EntryRef} {vol : Volume} {cs : List Nat} {s s' : GrowingFile}

namespace Inv

theorem start (hv : vol.WellFormed clusters) (hf : FileOf vol clusters r cs) :
    Inv clusters r cs (GrowingFile.start vol r cs) where
  wf := hv
  file := hf
  content := rfl
  fatEntry _ h := absurd h List.not_mem_nil
  follower _ h := absurd h List.not_mem_nil
  writer _ h := absurd h List.not_mem_nil
  reads _ h := absurd h List.not_mem_nil

theorem openFile (H : Inv clusters r cs s) : Inv clusters r cs { s with fds := s.fds ++ [{ fatEntry := r }] } where
  wf := H.wf
  file := H.file
  content := H.content
  fatEntry := List.forall_mem_append.mpr ⟨H.fatEntry, List.forall_mem_singleton.mpr rfl⟩
  follower := List.forall_mem_append.mpr ⟨H.follower,
    List.forall_mem_singleton.mpr ⟨Nat.zero_le _, .inl (.fresh _ _ _)⟩⟩
  writer := List.forall_mem_append.mpr ⟨H.writer, List.forall_mem_singleton.mpr (.fresh H.file)⟩
  reads := H.reads

/-- What is at an offset of the contents. -/
theorem current (H : Inv clusters r cs s) (offset len : Nat) :
    (s.content.drop offset).take len =
      slice (contents s.vol cs) offset (min len ((s.vol.entry r).fileSize - offset)) := by
  rw [H.content, drop_slice, take_slice, Nat.zero_add]

/-- `Read` returns the bytes of the contents at its offset, and the descriptor stays a follower. -/
theorem read_current (H : Inv clusters r cs s) {i len : Nat} {fd : FileDescriptor} (buf : Nat → UInt8)
    (hfd : s.fds[i]? = some fd) (hbehind : s.NothingBehind r (.read i buf len)) :
    ∃ n buf' fd', fd.read s.vol buf len = some (n, buf', fd') ∧
      slice buf' 0 n = (s.content.drop fd.rdOff).take len ∧ fd'.fatEntry = r ∧
      Follower s.vol cs (s.vol.entry r).fileSize fd' := by
  have hmem := List.mem_of_getElem? hfd
  obtain rfl := H.fatEntry fd hmem
  obtain ⟨hle, H' | hend⟩ := H.follower fd hmem
  · obtain ⟨buf', fd', hread, hreader, hent, hbytes⟩ := read_spec H.wf H.file H' hle buf len
    refine ⟨_, buf', fd', hread, hbytes.trans (H.current _ _).symm, hent, ?_, ?_⟩
    · rw [hreader.rdOff]
      omega
    · rw [hreader.rdOff]
      exact .inl hreader
  · have hsize := H.file.size_lt
    have hnothing : min len (left s.vol fd) = 0 := by
      have := hbehind fd hfd hend
      rw [left]
      omega
    refine ⟨0, buf, fd, read_nothing ?_ (by omega) hnothing, ?_, rfl, hle, .inr hend⟩
    · rw [hend]
      decide
    · rw [H.current]
      have hzero : min len ((s.vol.entry fd.fatEntry).fileSize - fd.rdOff) = 0 := by
        have := hbehind fd hfd hend
        omega
      rw [hzero, slice_zero, slice_zero]

theorem read (H : Inv clusters r cs s) {i len : Nat} {buf : Nat → UInt8} (hbehind : s.NothingBehind r (.read i buf len))
    (hs : s.step r (.read i buf len) = some s') : Inv clusters r cs s' := by
  simp only [GrowingFile.step, Option.bind_eq_bind, Option.bind_eq_some_iff] at hs
  obtain ⟨fd, hfd, ⟨n, buf', fd'⟩, hread, hs⟩ := hs
  obtain ⟨_, _, _, hread', hbytes, hent, hfollow⟩ := H.read_current buf hfd hbehind
  cases hread.symm.trans hread'
  cases hs
  refine ⟨H.wf, H.file, H.content, fun f hf => ?_, fun f hf => ?_, fun f hf => ?_, ?_⟩
  · rcases List.mem_or_eq_of_mem_set hf with hf | rfl
    · exact H.fatEntry f hf
    · exact hent
  · rcases List.mem_or_eq_of_mem_set hf with hf | rfl
    · exact H.follower f hf
    · exact hfollow
  · rcases List.mem_or_eq_of_mem_set hf with hf | rfl
    · exact H.writer f hf
    · exact (H.writer fd (List.mem_of_getElem? hfd)).congr (read_writeSide hread)
  · exact List.forall_mem_append.mpr ⟨H.reads, List.forall_mem_singleton.mpr hbytes⟩

theorem write (H : Inv clusters r cs s) {i len : Nat} {buf : Nat → UInt8}
    (happend : s.Appends clusters r (.write i buf len)) (hs : s.step r (.write i buf len) = some s') :
    ∃ cs', Inv clusters r cs' s' := by
  simp only [GrowingFile.step, Option.bind_eq_bind, Option.bind_eq_some_iff] at hs
  obtain ⟨fd, hfd, ⟨n, vol', fd'⟩, hwrite, hs⟩ := hs
  have hmem := List.mem_of_getElem? hfd
  obtain rfl := H.fatEntry fd hmem
  obtain ⟨hoff, hend, hlt, hroom⟩ := happend fd hfd
  obtain ⟨_, _, cs', hwrite', Hw, hgrow, hent, hkeep, hbytes, hsize, hopened⟩ :=
    write_spec H.wf (H.writer fd hmem) hend (hroom cs H.file) buf
  cases hwrite.symm.trans hwrite'
  cases hs
  rw [Nat.mod_eq_of_lt hlt] at hsize
  have hf := Hw.fileOf hsize hlt
  rw [hent] at hsize hf
  have hchain := (Hw.opened hopened).file
  rw [hent] at hchain
  have hle : (s.vol.entry fd.fatEntry).fileSize ≤ (vol'.entry fd.fatEntry).fileSize := by omega
  refine ⟨cs', hgrow.wellFormed H.wf, hf, ?_, fun f hf => ?_, fun f hf => ?_, fun f hf => ?_, H.reads⟩
  · show s.content ++ slice buf 0 len = slice (contents vol' cs') 0 (vol'.entry fd.fatEntry).fileSize
    rw [hsize, slice_add, Nat.zero_add, hbytes, H.content, ← hoff]
    refine congrArg (· ++ _) (slice_congr fun i hi => ?_)
    rw [Nat.zero_add]
    exact (hkeep i hi).symm
  · rcases List.mem_or_eq_of_mem_set hf with hf | rfl
    · exact H.fatEntry f hf
    · exact hent
  · rcases List.mem_or_eq_of_mem_set hf with hf | rfl
    · exact (H.follower f hf).grow hgrow hle
    · exact ((H.follower fd hmem).grow hgrow hle).congr (write_frame hwrite).2.1
  · rcases List.mem_or_eq_of_mem_set hf with hf | rfl
    · refine (H.writer f hf).grow hgrow ?_
      rw [H.fatEntry f hf]
      exact hchain
    · rw [Hw.wrOff]
      exact Hw

theorem step (H : Inv clusters r cs s) {e : Event} (happend : s.Appends clusters r e) (hbehind : s.NothingBehind r e)
    (hs : s.step r e = some s') : ∃ cs', Inv clusters r cs' s' := by
  cases e with
  | openFile =>
    cases hs
    exact ⟨cs, H.openFile⟩
  | read i buf len => exact ⟨cs, H.read hbehind hs⟩
  | write i buf len => exact H.write happend hs

end Inv

/-- Every `Read` returns the bytes of the contents at its offset, in every run in which bytes are appended
only and no `Read` goes on behind the end of the chain at which its descriptor had stopped. -/
theorem reads_current {es : List Event} (hv : vol.WellFormed clusters) (hf : FileOf vol clusters r cs)
    (hrun : (system r).Run (start vol r cs) es s)
    (happend : ∀ pre e post t, es = pre ++ e :: post → (system r).Run (start vol r cs) pre t → t.Appends clusters r e)
    (hbehind : ∀ pre e post t, es = pre ++ e :: post → (system r).Run (start vol r cs) pre t → t.NothingBehind r e) :
    (∀ c ∈ s.reads, c.Current) ∧ ∀ (i len : Nat) (buf : Nat → UInt8), i < s.fds.length →
      s.NothingBehind r (.read i buf len) → (s.step r (.read i buf len)).isSome := by
  obtain ⟨cs', H⟩ : ∃ cs', Inv clusters r cs' s := by
    refine hrun.invariant_of_forall (I := fun t => ∃ cs', Inv clusters r cs' t)
      (P := fun t e => t.Appends clusters r e ∧ t.NothingBehind r e) ?_ ⟨cs, .start hv hf⟩
      fun pre e post t hes hpre => ⟨happend pre e post t hes hpre, hbehind pre e post t hes hpre⟩
    rintro t e t' ⟨cs', H⟩ ⟨happend, hbehind⟩ hs
    exact H.step happend hbehind hs
  refine ⟨H.reads, fun i len buf hi hbehind => ?_⟩
  obtain ⟨n, buf', fd', hread, -⟩ := H.read_current buf (List.getElem?_eq_getElem hi) hbehind
  simp [step, List.getElem?_eq_getElem hi, hread]

theorem fileOf_emptyVolume : FileOf emptyVolume 126 ⟨2, 0⟩ [] :=
  ⟨fun h => absurd rfl h, fun _ => rfl, Nat.le_refl 0, by decide⟩

/-- A file of one full cluster is read to its end, and then a byte is appended and read. -/
def fullCluster : List Event := [
  .openFile, .openFile, .write 0 (fun _ => 1) 512, .read 1 (fun _ => 0) 512, .write 0 (fun _ => 2) 1,
  .read 1 (fun _ => 0) 1]

/-- What the steps of the run depend on: where the first descriptor writes, the size of the file, the size of a
cluster, and how many clusters are free. -/
def figures (s : GrowingFile) : Option Nat × Nat × Nat × Nat :=
  (s.fds[0]?.map (·.wrOff), (s.vol.entry ⟨2, 0⟩).fileSize, s.vol.bytesPerCluster,
    (s.vol.freeClusters 126).card)

theorem appends_of_figures {t : GrowingFile} {p len free : Nat} {buf : Nat → UInt8}
    (h : figures t = (some p, p, 512, free)) (hend : EndsInCluster 512 p len) (hlt : p + len < 2 ^ 32)
    (hroom : max ((p + len + 512 - 1) / 512) 1 ≤ free) : t.Appends 126 ⟨2, 0⟩ (.write 0 buf len) := by
  intro fd hfd
  simp only [figures, hfd, Option.map_some, Prod.mk.injEq, Option.some.injEq] at h
  obtain ⟨hoff, hsize, hb, hfree⟩ := h
  refine ⟨hoff.trans hsize.symm, hb ▸ hoff ▸ hend, hoff ▸ hlt, fun cs _ => ?_⟩
  rw [numCluster, hoff, hb, hfree]
  exact hroom.trans (Nat.le_add_left _ _)

theorem fullCluster_appends (pre : List Event) (e : Event) (post : List Event) (t : GrowingFile)
    (hes : fullCluster = pre ++ e :: post)
    (hrun : (system ⟨2, 0⟩).Run (start emptyVolume ⟨2, 0⟩ []) pre t) : t.Appends 126 ⟨2, 0⟩ e := by
  have hfirst : ((system ⟨2, 0⟩).exec (start emptyVolume ⟨2, 0⟩ []) (fullCluster.take 2)).map figures =
      some (some 0, 0, 512, 125) := by decide +kernel
  have hsecond : ((system ⟨2, 0⟩).exec (start emptyVolume ⟨2, 0⟩ []) (fullCluster.take 4)).map figures =
      some (some 512, 512, 512, 124) := by decide +kernel
  have hexec := Transition.System.exec_of_run hrun
  match pre with
  | [] | [_] | [_, _, _] | [_, _, _, _, _] =>
    cases hes
    trivial
  | [_, _] =>
    cases hes
    have hfig : figures t = (some 0, 0, 512, 125) :=
      Option.some.inj ((congrArg (Option.map figures) hexec).symm.trans hfirst)
    exact appends_of_figures hfig (.inr (.inl (by decide))) (by decide) (by decide)
  | [_, _, _, _] =>
    cases hes
    have hfig : figures t = (some 512, 512, 512, 124) :=
      Option.some.inj ((congrArg (Option.map figures) hexec).symm.trans hsecond)
    exact appends_of_figures hfig (.inr (.inl (by decide))) (by decide) (by decide)
  | _ :: _ :: _ :: _ :: _ :: _ :: _ =>
    have hlen := congrArg List.length hes
    simp only [fullCluster, List.length_append, List.length_cons, List.length_nil] at hlen
    omega

/-- The run up to the end of the first `Read`. -/
theorem reads_current_fullCluster :
    ∃ s, (system ⟨2, 0⟩).exec (start emptyVolume ⟨2, 0⟩ []) (fullCluster.take 4) = some s ∧
      ∀ c ∈ s.reads, c.Current := by
  refine ⟨_, rfl, ?_⟩
  have hrun := Transition.System.run_of_exec
    (rfl : (system ⟨2, 0⟩).exec (start emptyVolume ⟨2, 0⟩ []) (fullCluster.take 4) = some _)
  refine (reads_current emptyVolume_wellFormed fileOf_emptyVolume hrun (fun pre e post t hes hpre => ?_)
    fun pre e post t hes hpre => ?_).1
  · refine fullCluster_appends pre e (post ++ fullCluster.drop 4) t ?_ hpre
    rw [← List.cons_append, ← List.append_assoc, ← hes, List.take_append_drop]
  · have hexec := Transition.System.exec_of_run hpre
    match pre with
    | [] | [_] | [_, _] =>
      cases hes
      trivial
    | [_, _, _] =>
      cases hes
      have hcluster : ((system ⟨2, 0⟩).exec (start emptyVolume ⟨2, 0⟩ []) (fullCluster.take 3)).map
          (fun s => s.fds[1]?.map (·.rdCluster)) = some (some 0) := by decide +kernel
      have h1 : t.fds[1]?.map (·.rdCluster) = some 0 :=
        Option.some.inj ((congrArg (Option.map _) hexec).symm.trans hcluster)
      intro fd hfd hend
      rw [hfd, Option.map_some, hend] at h1
      cases h1
    | _ :: _ :: _ :: _ :: _ =>
      have hlen := congrArg List.length hes
      simp only [fullCluster, List.take_succ_cons, List.take_zero, List.length_append, List.length_cons,
        List.length_nil] at hlen
      omega

/-- In the whole run the last `Read` stands at `kEndOfClusterchain` and does not return the appended byte. -/
theorem not_reads_current_fullCluster :
    ¬∀ (clusters : Nat) (r : EntryRef) (vol : Volume) (cs : List Nat) (es : List Event) (s : GrowingFile),
      vol.WellFormed clusters → FileOf vol clusters r cs → (system r).Run (start vol r cs) es s →
      (∀ pre e post t, es = pre ++ e :: post → (system r).Run (start vol r cs) pre t →
        t.Appends clusters r e) → ∀ c ∈ s.reads, c.Current := by
  intro h
  have hlast : ((system ⟨2, 0⟩).exec (start emptyVolume ⟨2, 0⟩ []) fullCluster).map
      (fun s => s.reads[1]?.map fun c => (c.bytes, (c.content.drop c.offset).take c.len)) =
        some (some ([0], [2])) := by decide +kernel
  obtain ⟨s, hs, hcalls⟩ := Option.map_eq_some_iff.mp hlast
  obtain ⟨c, hc, hval⟩ := Option.map_eq_some_iff.mp hcalls
  have hcurrent := h 126 ⟨2, 0⟩ emptyVolume [] fullCluster s emptyVolume_wellFormed fileOf_emptyVolume
    (Transition.System.run_of_exec hs) fullCluster_appends c (List.mem_of_getElem? hc)
  rw [ReadResult.Current, (Prod.mk.inj hval).1, (Prod.mk.inj hval).2] at hcurrent
  exact absurd hcurrent (by decide)

end GrowingFile

end MikanOS.Fat
