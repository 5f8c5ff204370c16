import MikanOS.Fat.RoundTrip
import MikanOS.Library.Transition

/-! # Reading up to the end of a file

Several descriptors of one directory entry: each `Write` sets the size of the file to where its own
descriptor stands. The size can so fall below where another descriptor reads, and what is left for
that one is then a difference below 0 of two `size_t`. -/

namespace MikanOS.Fat

open Bytes

namespace FileDescriptor

variable {vol vol' : Volume} {fd fd' : FileDescriptor} {buf : Nat → UInt8} {len : Nat}

/-! ## How many bytes `Read` and `Load` return -/

/-- The loop of `Read` copies the whole of its length, whatever the chain is. -/
theorem readLoop_total {fuel total : Nat} (buf : Nat → UInt8) (hoff : fd.rdClusterOff < vol.bytesPerCluster)
    (htotal : total ≤ len) (hfuel : len - total < fuel) :
    ∃ buf' fd', readLoop vol len fuel total buf fd = some (len, buf', fd') ∧
      fd'.rdClusterOff < vol.bytesPerCluster ∧ fd'.fatEntry = fd.fatEntry := by
  induction fuel generalizing total buf fd with
  | zero => exact absurd hfuel (Nat.not_lt_zero _)
  | succ fuel ih =>
    by_cases hlt : total < len
    · generalize hn : min (len - total) (vol.bytesPerCluster - fd.rdClusterOff) = n
      generalize hfd₁ : (if fd.rdClusterOff + n = vol.bytesPerCluster then
        { fd with rdCluster := vol.nextCluster fd.rdCluster, rdClusterOff := 0 }
        else { fd with rdClusterOff := fd.rdClusterOff + n }) = fd₁
      have hoff₁ : fd₁.rdClusterOff < vol.bytesPerCluster ∧ fd₁.fatEntry = fd.fatEntry := by
        rw [← hfd₁]
        split
        · exact ⟨Nat.zero_lt_of_lt hoff, rfl⟩
        · exact ⟨by simp only; omega, rfl⟩
      obtain ⟨buf', fd', hloop, hoff', hent⟩ :=
        ih (memcpy buf total (vol.data fd.rdCluster) fd.rdClusterOff n) hoff₁.1
          (by omega : total + n ≤ len) (by omega)
      refine ⟨buf', fd', ?_, hoff', hent.trans hoff₁.2⟩
      rw [readLoop, if_pos hlt]
      simp only [hn, hfd₁]
      exact hloop
    · obtain rfl : total = len := by omega
      exact ⟨buf, fd, by rw [readLoop, if_neg hlt], hoff, rfl⟩

/-- What `Read` takes for the number of bytes that are left. -/
def left (vol : Volume) (fd : FileDescriptor) : Nat :=
  ((vol.entry fd.fatEntry).fileSize + 2 ^ 64 - fd.rdOff) % 2 ^ 64

/-- `Read` returns, and with the count that it has set out for. -/
theorem read_total (vol : Volume) (fd : FileDescriptor)
    (hoff : fd.rdClusterOff < vol.bytesPerCluster) (buf : Nat → UInt8) (len : Nat) :
    ∃ buf' fd', read vol fd buf len = some (min len (left vol fd), buf', fd') ∧
      fd'.rdClusterOff < vol.bytesPerCluster ∧ fd'.fatEntry = fd.fatEntry ∧
      fd'.rdOff < 2 ^ 64 := by
  generalize hfd₁ : (if fd.rdCluster = 0 then
    { fd with rdCluster := (vol.entry fd.fatEntry).firstCluster } else fd) = fd₁
  have hsame : fd₁.rdClusterOff = fd.rdClusterOff ∧ fd₁.fatEntry = fd.fatEntry ∧
      fd₁.rdOff = fd.rdOff := by
    rw [← hfd₁]
    split <;> exact ⟨rfl, rfl, rfl⟩
  obtain ⟨buf', fd', hloop, hoff', hent⟩ :=
    readLoop_total buf (hsame.1 ▸ hoff) (Nat.zero_le (min len (left vol fd)))
      (Nat.lt_succ_self _)
  refine ⟨buf', { fd' with rdOff := (fd'.rdOff + min len (left vol fd)) % 2 ^ 64 }, ?_, hoff',
    hent.trans hsame.2.1, Nat.mod_lt _ (by decide)⟩
  rw [left, Nat.sub_zero] at hloop
  simp only [read, hfd₁, hsame.2.1, hsame.2.2, hloop, Option.bind_eq_bind, Option.bind_some]
  rfl

theorem loadLoop_total {fuel offset : Nat} (cluster : Nat) (hpos : 0 < vol.bytesPerCluster)
    (hfuel : offset < fuel) :
    ∃ off cluster', loadLoop vol fuel offset cluster = some (off, cluster') ∧
      off < vol.bytesPerCluster := by
  induction fuel generalizing offset cluster with
  | zero => exact absurd hfuel (Nat.not_lt_zero _)
  | succ fuel ih =>
    rw [loadLoop]
    split
    · apply ih
      omega
    · exact ⟨offset, cluster, rfl, by omega⟩

theorem load_total (fd : FileDescriptor) (hpos : 0 < vol.bytesPerCluster) (buf : Nat → UInt8) (len offset : Nat) :
    ∃ buf', load vol fd buf len offset =
      some (min len (left vol { fatEntry := fd.fatEntry, rdOff := offset }), buf') := by
  obtain ⟨off, cluster, hloop, hoff⟩ :=
    loadLoop_total (vol.entry fd.fatEntry).firstCluster hpos (Nat.lt_succ_self offset)
  obtain ⟨buf', fd', hread, -⟩ := read_total vol
    ⟨fd.fatEntry, offset, cluster, off, 0, 0, 0⟩ hoff buf len
  refine ⟨buf', ?_⟩
  simp only [load, hloop, hread, Option.bind_eq_bind, Option.bind_some]
  rfl

/-- The count is bounded by what is really left just when the offset is in the file. -/
theorem min_left_le_iff (fd : FileDescriptor) (hsize : (vol.entry fd.fatEntry).fileSize < 2 ^ 32)
    (hoff : fd.rdOff < 2 ^ 64) :
    min len (left vol fd) ≤ (vol.entry fd.fatEntry).fileSize - fd.rdOff ↔
      fd.rdOff ≤ (vol.entry fd.fatEntry).fileSize ∨ len = 0 := by
  rw [left]
  omega

/-- The reading side of a descriptor. -/
def readSide (fd : FileDescriptor) : EntryRef × Nat × Nat × Nat :=
  (fd.fatEntry, fd.rdOff, fd.rdCluster, fd.rdClusterOff)

theorem openWrite_readSide (h : openWrite vol fd len = some (vol', fd')) :
    fd'.readSide = fd.readSide := by
  simp only [openWrite] at h
  split at h
  · split at h
    · cases h
      rfl
    · simp only [Option.bind_eq_bind, Option.bind_eq_some_iff] at h
      obtain ⟨⟨first, vol₁⟩, -, h⟩ := h
      cases h
      rfl
  · cases h
    rfl

theorem advance_readSide {rest : Nat} (h : advance vol fd rest = some (vol', fd')) :
    fd'.readSide = fd.readSide := by
  simp only [advance] at h
  split at h
  · split at h
    · simp only [Option.bind_eq_bind, Option.bind_eq_some_iff] at h
      obtain ⟨⟨last, vol₁⟩, -, h⟩ := h
      cases h
      rfl
    · cases h
      rfl
  · cases h
    rfl

theorem writeLoop_frame {fuel total n : Nat}
    (h : writeLoop buf len fuel total vol fd = some (n, vol', fd')) :
    vol'.bytesPerCluster = vol.bytesPerCluster ∧ fd'.readSide = fd.readSide := by
  induction fuel generalizing total vol fd with
  | zero => cases h
  | succ fuel ih =>
    rw [writeLoop] at h
    split at h
    · simp only [Option.bind_eq_bind, Option.bind_eq_some_iff] at h
      obtain ⟨⟨vol₁, fd₁⟩, hadv, hloop⟩ := h
      obtain ⟨hb, hside⟩ := ih hloop
      have hside₁ := advance_readSide hadv
      exact ⟨hb.trans (advance_frame hadv).1, hside.trans hside₁⟩
    · cases h
      exact ⟨rfl, rfl⟩

/-- `Write` sets the size to 32 bits of its offset and leaves the reading side alone. -/
theorem write_frame {n : Nat} (h : write vol fd buf len = some (n, vol', fd')) :
    vol'.bytesPerCluster = vol.bytesPerCluster ∧ fd'.readSide = fd.readSide ∧
      (vol'.entry fd.fatEntry).fileSize < 2 ^ 32 := by
  simp only [write, Option.bind_eq_bind, Option.bind_eq_some_iff] at h
  obtain ⟨⟨vol₁, fd₁⟩, hopen, ⟨total, vol₂, fd₂⟩, hloop, h⟩ := h
  cases h
  obtain ⟨hb, hside⟩ := writeLoop_frame hloop
  have hside' := hside.trans (openWrite_readSide hopen)
  have hent : fd₂.fatEntry = fd.fatEntry := congrArg Prod.fst hside'
  refine ⟨hb.trans (openWrite_frame hopen).1, hside', ?_⟩
  simp only [Volume.setEntry, hent, Function.update_self]
  exact Nat.mod_lt _ (by decide)

end FileDescriptor

/-! ## Descriptors of one entry -/

/-- A call of `Read` or `Load`: its offset and length, the size of the file at that moment, and the
count that was returned. -/
structure ReadCall where
  offset : Nat
  len : Nat
  fileSize : Nat
  count : Nat

/-- The count stays within what is left of the file. -/
def ReadCall.Bounded (c : ReadCall) : Prop := c.count ≤ c.fileSize - c.offset

/-- The descriptors of an entry, with the calls of `Read` and `Load` so far. -/
structure Session where
  vol : Volume
  fds : List FileDescriptor
  calls : List ReadCall

namespace Session

inductive Event where
  | openFile
  | read (i : Nat) (buf : Nat → UInt8) (len : Nat)
  | write (i : Nat) (buf : Nat → UInt8) (len : Nat)
  | load (i : Nat) (buf : Nat → UInt8) (len offset : Nat)

/-- One event with the descriptors of the entry `r`, if its call returns. -/
def step (r : EntryRef) (s : Session) : Event → Option Session
  | .openFile => some { s with fds := s.fds ++ [{ fatEntry := r }] }
  | .read i buf len => do
    let fd ← s.fds[i]?
    let (count, _, fd') ← fd.read s.vol buf len
    let call : ReadCall := ⟨fd.rdOff, len, (s.vol.entry r).fileSize, count⟩
    some { s with fds := s.fds.set i fd', calls := s.calls ++ [call] }
  | .write i buf len => do
    let fd ← s.fds[i]?
    let (_, vol, fd') ← fd.write s.vol buf len
    some { s with vol, fds := s.fds.set i fd' }
  | .load i buf len offset => do
    let fd ← s.fds[i]?
    if offset < 2 ^ 64 then
      let (count, _) ← fd.load s.vol buf len offset
      let call : ReadCall := ⟨offset, len, (s.vol.entry r).fileSize, count⟩
      some { s with calls := s.calls ++ [call] }
    else none

def system (r : EntryRef) : Transition.System Session Event := ⟨step r⟩

def start (vol : Volume) : Session := ⟨vol, [], []⟩

structure Inv (r : EntryRef) (s : Session) : Prop where
  pos : 0 < s.vol.bytesPerCluster
  size_lt : (s.vol.entry r).fileSize < 2 ^ 32
  fatEntry : ∀ fd ∈ s.fds, fd.fatEntry = r
  rdOff : ∀ fd ∈ s.fds, fd.rdOff < 2 ^ 64
  rdClusterOff : ∀ fd ∈ s.fds, fd.rdClusterOff < s.vol.bytesPerCluster
  calls : ∀ c ∈ s.calls, c.Bounded ↔ c.offset ≤ c.fileSize ∨ c.len = 0

variable {r : EntryRef} {vol : Volume} {s s' : Session}

namespace Inv

theorem start (hpos : 0 < vol.bytesPerCluster) (hsize : (vol.entry r).fileSize < 2 ^ 32) :
    Inv r (Session.start vol) where
  pos := hpos
  size_lt := hsize
  fatEntry _ h := absurd h List.not_mem_nil
  rdOff _ h := absurd h List.not_mem_nil
  rdClusterOff _ h := absurd h List.not_mem_nil
  calls _ h := absurd h List.not_mem_nil

/-- Another descriptor, or a descriptor that has moved. -/
theorem withFds (H : Inv r s) {fds : List FileDescriptor}
    (hfds : ∀ fd ∈ fds, fd ∈ s.fds ∨ (fd.fatEntry = r ∧ fd.rdOff < 2 ^ 64 ∧
      fd.rdClusterOff < s.vol.bytesPerCluster)) : Inv r { s with fds } where
  pos := H.pos
  size_lt := H.size_lt
  fatEntry fd h := (hfds fd h).elim (H.fatEntry fd) fun h => h.1
  rdOff fd h := (hfds fd h).elim (H.rdOff fd) fun h => h.2.1
  rdClusterOff fd h := (hfds fd h).elim (H.rdClusterOff fd) fun h => h.2.2
  calls := H.calls

theorem withCall (H : Inv r s) {offset len : Nat} (hoff : offset < 2 ^ 64) :
    Inv r { s with calls := s.calls ++ [⟨offset, len, (s.vol.entry r).fileSize,
      min len (FileDescriptor.left s.vol { fatEntry := r, rdOff := offset })⟩] } where
  pos := H.pos
  size_lt := H.size_lt
  fatEntry := H.fatEntry
  rdOff := H.rdOff
  rdClusterOff := H.rdClusterOff
  calls c hc := by
    rcases List.mem_append.mp hc with hc | hc
    · exact H.calls c hc
    · rw [List.mem_singleton.mp hc]
      exact FileDescriptor.min_left_le_iff { fatEntry := r, rdOff := offset } H.size_lt hoff

theorem step (H : Inv r s) {e : Event} (hs : s.step r e = some s') : Inv r s' := by
  cases e with
  | openFile =>
    cases hs
    refine H.withFds fun fd hfd => ?_
    refine (List.mem_append.mp hfd).imp_right fun h => ?_
    rw [List.mem_singleton.mp h]
    exact ⟨rfl, Nat.two_pow_pos 64, H.pos⟩
  | read i buf len =>
    simp only [Session.step, Option.bind_eq_bind, Option.bind_eq_some_iff] at hs
    obtain ⟨fd, hfd, ⟨count, buf', fd'⟩, hread, hs⟩ := hs
    have hmem := List.mem_of_getElem? hfd
    have hent := H.fatEntry fd hmem
    obtain ⟨buf'', fd'', hread', hoff, hent', hrd⟩ :=
      FileDescriptor.read_total _ _ (H.rdClusterOff fd hmem) buf len
    rw [hread'] at hread
    cases hread
    cases hs
    have hleft : FileDescriptor.left s.vol fd =
        FileDescriptor.left s.vol { fatEntry := r, rdOff := fd.rdOff } := by
      rw [FileDescriptor.left, FileDescriptor.left, hent]
    have H' : Inv r { s with fds := s.fds.set i fd' } := by
      refine H.withFds fun f hf => ?_
      refine (List.mem_or_eq_of_mem_set hf).imp_right fun h => ?_
      rw [h]
      exact ⟨hent'.trans hent, hrd, hoff⟩
    rw [hleft]
    exact H'.withCall (H.rdOff fd hmem)
  | write i buf len =>
    simp only [Session.step, Option.bind_eq_bind, Option.bind_eq_some_iff] at hs
    obtain ⟨fd, hfd, ⟨count, vol', fd'⟩, hwrite, hs⟩ := hs
    cases hs
    have hmem := List.mem_of_getElem? hfd
    obtain ⟨hb, hside, hsize⟩ := FileDescriptor.write_frame hwrite
    simp only [FileDescriptor.readSide, Prod.mk.injEq] at hside
    obtain ⟨hent, hrd, -, hoff⟩ := hside
    have hfds : ∀ f ∈ s.fds.set i fd', f.fatEntry = r ∧ f.rdOff < 2 ^ 64 ∧
        f.rdClusterOff < s.vol.bytesPerCluster := by
      intro f hf
      rcases List.mem_or_eq_of_mem_set hf with hf | rfl
      · exact ⟨H.fatEntry f hf, H.rdOff f hf, H.rdClusterOff f hf⟩
      · rw [hent, hrd, hoff]
        exact ⟨H.fatEntry fd hmem, H.rdOff fd hmem, H.rdClusterOff fd hmem⟩
    refine ⟨?_, ?_, fun f hf => (hfds f hf).1, fun f hf => (hfds f hf).2.1, fun f hf => ?_, H.calls⟩
    · exact hb ▸ H.pos
    · exact H.fatEntry fd hmem ▸ hsize
    · exact hb ▸ (hfds f hf).2.2
  | load i buf len offset =>
    simp only [Session.step, Option.bind_eq_bind, Option.bind_eq_some_iff,
      Option.ite_none_right_eq_some] at hs
    obtain ⟨fd, hfd, hlt, ⟨count, buf'⟩, hload, hs⟩ := hs
    obtain ⟨buf'', hload'⟩ := FileDescriptor.load_total fd H.pos buf len offset
    rw [hload', H.fatEntry fd (List.mem_of_getElem? hfd)] at hload
    cases hload
    cases hs
    exact H.withCall hlt

theorem run {es : List Event} (hpos : 0 < vol.bytesPerCluster)
    (hsize : (vol.entry r).fileSize < 2 ^ 32) (h : (system r).Run (Session.start vol) es s) :
    Inv r s :=
  h.invariant (I := Inv r) (fun _ _ _ H hs => H.step hs) (.start hpos hsize)

end Inv

/-- `Read` and `Load` always return, and a call returns no more than what is left of the file just
when its offset is not behind the end or it asks for nothing. -/
theorem reads_bounded_iff {es : List Event} (hpos : 0 < vol.bytesPerCluster)
    (hsize : (vol.entry r).fileSize < 2 ^ 32) (h : (system r).Run (start vol) es s) :
    (∀ c ∈ s.calls, c.Bounded ↔ c.offset ≤ c.fileSize ∨ c.len = 0) ∧
      ∀ i < s.fds.length, ∀ buf len,
        (s.step r (.read i buf len)).isSome ∧
        ∀ offset < 2 ^ 64, (s.step r (.load i buf len offset)).isSome := by
  have H := Inv.run hpos hsize h
  refine ⟨H.calls, fun i hi buf len => ⟨?_, fun offset hoff => ?_⟩⟩
  · obtain ⟨buf', fd', hread, -⟩ :=
      FileDescriptor.read_total _ _ (H.rdClusterOff _ (List.getElem_mem hi)) buf len
    simp [step, List.getElem?_eq_getElem hi, hread]
  · obtain ⟨buf', hload⟩ := FileDescriptor.load_total s.fds[i] H.pos buf len offset
    simpa [step, List.getElem?_eq_getElem hi, hload] using hoff

/-- A file of 1024 bytes is read up to byte 600 and then written anew through another descriptor. -/
def rewritten : List Event := [
  .openFile, .openFile, .openFile, .write 0 (fun _ => 1) 1024, .read 1 (fun _ => 0) 600,
  .write 2 (fun _ => 2) 1, .read 1 (fun _ => 0) 10, .load 1 (fun _ => 0) 10 0]

theorem reads_bounded_iff_rewritten :
    ∃ s, (system ⟨2, 0⟩).exec (start FileDescriptor.emptyVolume) rewritten = some s ∧
      s.calls.length = 3 ∧ ∀ c ∈ s.calls, c.Bounded ↔ c.offset ≤ c.fileSize ∨ c.len = 0 := by
  refine ⟨_, rfl, rfl, ?_⟩
  have hrun := Transition.System.run_of_exec
    (rfl : (system ⟨2, 0⟩).exec (start FileDescriptor.emptyVolume) rewritten = some _)
  exact (reads_bounded_iff (by decide) (by decide) hrun).1

/-- The second `Read` returns 10 bytes of a file of one byte, from offset 600 on. -/
theorem not_reads_bounded_rewritten :
    ∃ s, (system ⟨2, 0⟩).Run (start FileDescriptor.emptyVolume) rewritten s ∧
      (s.calls.map fun c => (c.offset, c.fileSize, c.count)) =
        [(0, 1024, 600), (600, 1, 10), (0, 1, 1)] ∧
      ¬ ∀ c ∈ s.calls, c.Bounded := by
  have h : (((system ⟨2, 0⟩).exec (start FileDescriptor.emptyVolume) rewritten).map fun s =>
      s.calls.map fun c => (c.offset, c.fileSize, c.count)) =
        some [(0, 1024, 600), (600, 1, 10), (0, 1, 1)] := by decide +kernel
  obtain ⟨s, hs, hcalls⟩ := Option.map_eq_some_iff.mp h
  refine ⟨s, Transition.System.run_of_exec hs, hcalls, fun hall => ?_⟩
  have hmem : (600, 1, 10) ∈ s.calls.map fun c => (c.offset, c.fileSize, c.count) := by
    rw [hcalls]
    exact List.mem_cons_of_mem _ List.mem_cons_self
  obtain ⟨c, hc, hval⟩ := List.mem_map.mp hmem
  have := hall c hc
  simp only [Prod.mk.injEq] at hval
  rw [ReadCall.Bounded, hval.1, hval.2.1, hval.2.2] at this
  omega

end Session

end MikanOS.Fat
