import MikanOS.Fat.RoundTrip

/-! # Slices of a file

A sequence of calls of `Read` and `Load` on one descriptor of a file that does not change: each returns a
slice of the contents, `Read` from where the descriptor stands and `Load` from its offset. -/

namespace MikanOS.Fat.FileDescriptor

open Bytes

/-- A call, with its buffer and length, and for `Load` with its offset. -/
inductive Call where
  | read (buf : Nat → UInt8) (len : Nat)
  | load (buf : Nat → UInt8) (len offset : Nat)

/-- The bytes that a call returns, and the descriptor after it. `Load` reads with a descriptor of its own. -/
def call (vol : Volume) (fd : FileDescriptor) : Call → Option (List UInt8 × FileDescriptor)
  | .read buf len => do
    let (n, buf, fd) ← read vol fd buf len
    pure (slice buf 0 n, fd)
  | .load buf len offset => do
    let (n, buf) ← load vol fd buf len offset
    pure (slice buf 0 n, fd)

/-- The bytes of each of the calls, one after the other. -/
def callAll (vol : Volume) (fd : FileDescriptor) : List Call → Option (List (List UInt8))
  | [] => some []
  | c :: calls => do
    let (bytes, fd) ← call vol fd c
    let rest ← callAll vol fd calls
    pure (bytes :: rest)

/-- The slices of a file of `size` bytes that the calls ask for, from the byte `q` on. -/
def slices (content : Nat → UInt8) (size : Nat) : (q : Nat) → List Call → List (List UInt8)
  | _, [] => []
  | q, .read _ len :: calls =>
    slice content q (min len (size - q)) :: slices content size (q + min len (size - q)) calls
  | q, .load _ len offset :: calls =>
    slice content offset (min len (size - offset)) :: slices content size q calls

/-- A `Load` begins in the file or at its end. -/
def Call.Within (size : Nat) : Call → Prop
  | .read _ _ => True
  | .load _ _ offset => offset ≤ size

variable {vol : Volume} {clusters q : Nat} {cs : List Nat} {fd : FileDescriptor} {r : EntryRef}

/-- The calls from a descriptor that has read `q` bytes on. -/
theorem callAll_spec (hv : vol.WellFormed clusters) (hf : FileOf vol clusters fd.fatEntry cs)
    (H : Reader vol cs fd q) (hq : q ≤ (vol.entry fd.fatEntry).fileSize) {calls : List Call}
    (hcalls : ∀ c ∈ calls, c.Within (vol.entry fd.fatEntry).fileSize) :
    callAll vol fd calls =
      some (slices (contents vol cs) (vol.entry fd.fatEntry).fileSize q calls) := by
  induction calls generalizing fd q with
  | nil => rfl
  | cons c calls ih =>
    rw [List.forall_mem_cons] at hcalls
    obtain ⟨hc, hrests⟩ := hcalls
    cases c with
    | read buf len =>
      obtain ⟨buf', fd', hread, H', hent, hbytes⟩ := read_spec hv hf H hq buf len
      have hrest := ih (hent ▸ hf) H' (by rw [hent]; omega) (hent ▸ hrests)
      simp only [callAll, call, hread, hrest, hbytes, hent, slices, Option.bind_eq_bind,
        Option.bind_some, Option.pure_def]
    | load buf len offset =>
      obtain ⟨buf', hload, hbytes⟩ := load_spec hv hf hc buf len
      have hrest := ih hf H hq hrests
      simp only [callAll, call, hload, hrest, hbytes, slices, Option.bind_eq_bind, Option.bind_some,
        Option.pure_def]

/-- What a fresh descriptor reads behind the first `offset` bytes, `Load` gives too. -/
theorem load_eq_read_skip (hv : vol.WellFormed clusters) (hf : FileOf vol clusters r cs) {offset : Nat}
    (hoffset : offset ≤ (vol.entry r).fileSize) (hent : fd.fatEntry = r) (skipped buf : Nat → UInt8) (len : Nat) :
    ∃ bytes fd₁ fd₂ fd₃, call vol { fatEntry := r } (.read skipped offset) = some (bytes, fd₁) ∧
      bytes.length = offset ∧ call vol fd₁ (.read buf len) = some (slice (contents vol cs) offset
        (min len ((vol.entry r).fileSize - offset)), fd₂) ∧
      call vol fd (.load buf len offset) = some (slice (contents vol cs) offset
        (min len ((vol.entry r).fileSize - offset)), fd₃) ∧ fd₃ = fd := by
  subst hent
  have hfresh := Reader.fresh vol cs fd.fatEntry
  obtain ⟨buf₁, fd₁, hskip, H, hent, hbytes⟩ :=
    @read_spec vol clusters cs { fatEntry := fd.fatEntry } 0 hv hf hfresh (Nat.zero_le _) skipped offset
  simp only [Nat.sub_zero, Nat.min_eq_left hoffset, Nat.zero_add] at hskip H hbytes
  obtain ⟨buf₂, fd₂, hread, -, -, hbytes₂⟩ := read_spec hv (hent ▸ hf) H (hent ▸ hoffset) buf len
  obtain ⟨buf₃, hload, hbytes₃⟩ := load_spec hv hf hoffset buf len
  simp only [hent] at hread hbytes₂
  refine ⟨slice buf₁ 0 offset, fd₁, fd₂, fd, ?_, length_slice .., ?_, ?_, rfl⟩
  · simp only [call, hskip, Option.bind_eq_bind, Option.bind_some]
    rfl
  · simp only [call, hread, hbytes₂, Option.bind_eq_bind, Option.bind_some, Option.pure_def]
  · simp only [call, hload, hbytes₃, Option.bind_eq_bind, Option.bind_some, Option.pure_def]

/-- Every call returns its slice of the file, and `Load` gives what a fresh descriptor reads behind the bytes
in front of the offset. -/
theorem calls_return_slices (hv : vol.WellFormed clusters) (hf : FileOf vol clusters r cs) {calls : List Call}
    (hcalls : ∀ c ∈ calls, c.Within (vol.entry r).fileSize) :
    callAll vol { fatEntry := r } calls = some (slices (contents vol cs) (vol.entry r).fileSize 0 calls) ∧
      ∀ fd : FileDescriptor, fd.fatEntry = r → ∀ offset ≤ (vol.entry r).fileSize,
        ∀ (skipped buf : Nat → UInt8) (len : Nat), ∃ bytes fd₁ fd₂ fd₃,
          call vol { fatEntry := r } (.read skipped offset) = some (bytes, fd₁) ∧ bytes.length = offset ∧
          call vol fd₁ (.read buf len) = some (slice (contents vol cs) offset
            (min len ((vol.entry r).fileSize - offset)), fd₂) ∧
          call vol fd (.load buf len offset) = some (slice (contents vol cs) offset
            (min len ((vol.entry r).fileSize - offset)), fd₃) ∧ fd₃ = fd := by
  refine ⟨?_, fun fd hent offset hoffset => load_eq_read_skip hv hf hoffset hent⟩
  exact @callAll_spec vol clusters 0 cs { fatEntry := r } hv hf (.fresh vol cs r) (Nat.zero_le _) _ hcalls

/-- A file of two clusters, that ends with the second one. -/
def twoClusters : Volume where
  bytesPerCluster := 512
  rootCluster := 2
  fatWords := 128
  fat := fun c => if c = 3 then 4 else if c < 5 then kEndOfClusterchain else 0
  data := fun c i => UInt8.ofNat (c + i)
  entry := fun _ => ⟨.replicate 11 0, 0, 0, 3, 1024⟩

theorem twoClusters_wellFormed : twoClusters.WellFormed 126 := ⟨by decide, by decide, by decide⟩

theorem twoClusters_fileOf : FileOf twoClusters 126 ⟨2, 0⟩ [3, 4] := by
  refine ⟨fun _ => ⟨?_, by decide⟩, fun h => (List.cons_ne_nil _ _ h).elim, by decide, by decide⟩
  exact .link (by decide) (.last (by decide))

/-- Reads up to the end of each cluster, with loads at the boundary and at the end between them. -/
theorem calls_return_slices_twoClusters :
    let calls : List Call := [.read (fun _ => 0) 512, .load (fun _ => 0) 600 512, .read (fun _ => 0) 512,
      .load (fun _ => 0) 1 1024, .read (fun _ => 0) 1]
    (callAll twoClusters { fatEntry := ⟨2, 0⟩ } calls =
      some (slices (contents twoClusters [3, 4]) 1024 0 calls)) :=
  (calls_return_slices twoClusters_wellFormed twoClusters_fileOf (by
    simp only [List.forall_mem_cons, Call.Within]
    exact ⟨trivial, by decide, trivial, by decide, trivial, fun _ h => by cases h⟩)).1

end MikanOS.Fat.FileDescriptor
