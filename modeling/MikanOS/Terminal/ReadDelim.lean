import MikanOS.Fat.Slices
import MikanOS.Terminal.ExecuteLine

/-! # Reading a stream line by line

`ReadDelim` of `file.cpp` on the descriptors whose `Read` delivers a finite stream byte by byte, and the loop of
`cat` over it. -/

namespace MikanOS.CommandLine

open CString

/-! ## The chunks of a stream -/

section

variable {delim : UInt8} {n : Nat} {input : List UInt8}

theorem readDelim_append (delim : UInt8) (n : Nat) (input : List UInt8) :
    (readDelim delim n input).1 ++ (readDelim delim n input).2 = input := by
  induction n generalizing input with
  | zero => rfl
  | succ n ih =>
    cases input with
    | nil => rfl
    | cons ch input =>
      rw [readDelim]
      split
      · rfl
      · exact congrArg (ch :: ·) (ih input)

theorem length_readDelim_le (delim : UInt8) (n : Nat) (input : List UInt8) :
    (readDelim delim n input).1.length ≤ n := by
  induction n generalizing input with
  | zero => exact le_rfl
  | succ n ih =>
    cases input with
    | nil => exact Nat.zero_le _
    | cons ch input =>
      rw [readDelim]
      split
      · exact Nat.succ_le_succ (Nat.zero_le n)
      · exact Nat.succ_le_succ (ih input)

/-- The delimiter ends a chunk. -/
theorem delim_notMem_dropLast (delim : UInt8) (n : Nat) (input : List UInt8) :
    delim ∉ (readDelim delim n input).1.dropLast := by
  induction n generalizing input with
  | zero => exact List.not_mem_nil
  | succ n ih =>
    cases input with
    | nil => exact List.not_mem_nil
    | cons ch input =>
      rw [readDelim]
      split
      · exact List.not_mem_nil
      · rename_i hne
        intro hmem
        have hmem : delim ∈ (ch :: (readDelim delim n input).1).dropLast := hmem
        by_cases hnil : (readDelim delim n input).1 = []
        · rw [hnil] at hmem
          cases hmem
        · rw [List.dropLast_cons_of_ne_nil hnil] at hmem
          rcases List.mem_cons.mp hmem with rfl | hmem
          · exact hne rfl
          · exact ih input hmem

theorem readDelim_ne_nil (hn : n ≠ 0) (hinput : input ≠ []) : (readDelim delim n input).1 ≠ [] := by
  obtain ⟨n, rfl⟩ := Nat.exists_eq_succ_of_ne_zero hn
  obtain ⟨ch, input, rfl⟩ := List.exists_cons_of_ne_nil hinput
  rw [readDelim]
  split <;> exact List.cons_ne_nil _ _

/-- A chunk is shorter than it may be if it ends with the delimiter, or at the end of the stream. -/
theorem short_readDelim (h : (readDelim delim n input).1.length < n) :
    (readDelim delim n input).1.getLast? = some delim ∨ (readDelim delim n input).2 = [] := by
  induction n generalizing input with
  | zero => exact absurd h (Nat.not_lt_zero _)
  | succ n ih =>
    cases input with
    | nil => exact .inr rfl
    | cons ch input =>
      rw [readDelim] at h ⊢
      split
      · rename_i hch
        exact .inl (congrArg some hch)
      · rename_i hne
        rw [if_neg hne] at h
        refine (ih (Nat.lt_of_succ_lt_succ h)).imp_left fun hlast => ?_
        show (ch :: (readDelim delim n input).1).getLast? = some delim
        rw [List.getLast?_cons, hlast]
        rfl

end

/-! ## `ReadDelim` on a descriptor -/

/-- What `ReadDelim` uses of a `FileDescriptor` with states in `σ`: the bytes that `Read` of a length stores,
if it returns. -/
structure Descriptor (σ : Type) where
  read : σ → Nat → Option (List UInt8 × σ)

namespace Descriptor

variable {σ : Type} (fd : Descriptor σ)

/-- From a state on, the descriptor delivers a stream byte by byte, and nothing behind its end. -/
def Delivers (s : σ) (input : List UInt8) : Prop :=
  ∃ R : σ → List UInt8 → Prop, R s input ∧ ∀ s input, R s input →
    ∃ s', fd.read s 1 = some (input.take 1, s') ∧ R s' (input.drop 1)

/-- The loop of `ReadDelim` from an index on, where `turns` are left until the buffer is full. -/
def readLoop (delim : UInt8) : (turns i : Nat) → (buf : List UInt8) → σ → Option (Nat × List UInt8 × σ)
  | 0, i, buf, s => some (i, buf, s)
  | turns + 1, i, buf, s => do
    let (bytes, s) ← fd.read s 1
    let buf ← storeBytes buf i bytes
    if bytes.length = 0 then some (i, buf, s)
    else if buf[i]? = some delim then some (i + 1, buf, s)
    else readLoop delim turns (i + 1) buf s

/-- `ReadDelim`, for a buffer that has the length: the number of bytes that it returns, the buffer and the state
of the descriptor. A store behind the buffer gives no result. -/
def readDelim (delim : UInt8) (buf : List UInt8) (len : Nat) (s : σ) : Option (Nat × List UInt8 × σ) := do
  let (i, buf, s) ← fd.readLoop delim (len - 1) 0 buf s
  let buf ← storeBytes buf i [0]
  some (i, buf, s)

/-- The chunks that calls of `ReadDelim` with one buffer return, one after the other. -/
def readDelims (delim : UInt8) (len : Nat) : (calls : Nat) → (buf : List UInt8) → σ →
    Option (List (List UInt8) × List UInt8 × σ)
  | 0, buf, s => some ([], buf, s)
  | calls + 1, buf, s => do
    let (n, buf, s) ← fd.readDelim delim buf len s
    let (chunks, last, s) ← readDelims delim len calls buf s
    some (buf.take n :: chunks, last, s)

/-- The loop of `cat`: the texts that it prints. The first number bounds the turns. -/
def catLoop : (turns : Nat) → (u8buf : List UInt8) → σ → Option (List (List UInt8))
  | 0, _, _ => none
  | turns + 1, u8buf, s => do
    let (n, u8buf, s) ← fd.readDelim newline u8buf 1024 s
    if n = 0 then some []
    else (catLoop turns u8buf s).map (CString.string u8buf 0 :: ·)

variable {fd} {s : σ} {input buf : List UInt8} {delim : UInt8} {turns i len : Nat}

theorem Delivers.read (H : fd.Delivers s input) :
    ∃ s', fd.read s 1 = some (input.take 1, s') ∧ fd.Delivers s' (input.drop 1) := by
  obtain ⟨R, hR, hstep⟩ := H
  obtain ⟨s', hread, hR'⟩ := hstep s input hR
  exact ⟨s', hread, R, hR', hstep⟩

/-- The loop stores a chunk of the stream behind what the buffer has. -/
theorem readLoop_spec {front back : List UInt8} (H : fd.Delivers s input) (hback : turns ≤ back.length) :
    ∃ s', fd.readLoop delim turns front.length (front ++ back) s =
        some (front.length + (CommandLine.readDelim delim turns input).1.length,
          front ++ ((CommandLine.readDelim delim turns input).1 ++
            back.drop (CommandLine.readDelim delim turns input).1.length), s') ∧
      fd.Delivers s' (CommandLine.readDelim delim turns input).2 := by
  induction turns generalizing front back s input with
  | zero => exact ⟨s, rfl, H⟩
  | succ turns ih =>
    obtain ⟨s', hread, H'⟩ := H.read
    obtain ⟨old, back, rfl⟩ := List.exists_cons_of_length_pos (Nat.lt_of_lt_of_le (Nat.succ_pos turns) hback)
    rw [readLoop, hread]
    cases input with
    | nil =>
      have hstore : storeBytes (front ++ old :: back) front.length [] = some (front ++ old :: back) := by
        show storeBytes (front ++ ([] ++ old :: back)) front.length [] = some (front ++ ([] ++ old :: back))
        exact storeBytes_append rfl rfl
      refine ⟨s', ?_, H'⟩
      simp only [List.take_nil, Option.bind_eq_bind, Option.bind_some, hstore]
      rfl
    | cons ch input =>
      have hstore : storeBytes (front ++ old :: back) front.length [ch] = some (front ++ ch :: back) := by
        show storeBytes (front ++ ([old] ++ back)) front.length [ch] = some (front ++ ([ch] ++ back))
        exact storeBytes_append rfl rfl
      have hget : (front ++ ch :: back)[front.length]? = some ch := by
        rw [List.getElem?_append_right (Nat.le_refl _), Nat.sub_self]
        rfl
      simp only [List.take_succ_cons, List.take_zero, Option.bind_eq_bind, Option.bind_some, hstore,
        hget, Option.some.injEq, CommandLine.readDelim, List.length_singleton, Nat.one_ne_zero, if_false]
      by_cases hch : ch = delim
      · refine ⟨s', ?_, ?_⟩
        · simp only [if_pos hch]
          rfl
        · simp only [if_pos hch]
          exact H'
      · have hlen : turns ≤ back.length := Nat.le_of_succ_le_succ hback
        obtain ⟨t, hloop, Ht⟩ := @ih s' input (front ++ [ch]) back H' hlen
        refine ⟨t, ?_, ?_⟩
        · simp only [if_neg hch]
          rw [List.length_append, List.append_assoc] at hloop
          refine hloop.trans ?_
          simp only [List.length_cons, List.append_assoc, List.length_nil, List.drop_succ_cons,
            List.cons_append, List.nil_append, Nat.zero_add, Nat.add_assoc, Nat.add_comm 1]
        · simp only [if_neg hch]
          exact Ht

/-- `ReadDelim` returns a chunk of the stream with a zero behind it. -/
theorem readDelim_spec (H : fd.Delivers s input) (hlen : 1 ≤ len) (hbuf : buf.length = len) :
    ∃ s', fd.readDelim delim buf len s = some ((CommandLine.readDelim delim (len - 1) input).1.length,
        (CommandLine.readDelim delim (len - 1) input).1 ++
          0 :: buf.drop ((CommandLine.readDelim delim (len - 1) input).1.length + 1), s') ∧
      fd.Delivers s' (CommandLine.readDelim delim (len - 1) input).2 := by
  obtain ⟨s', hloop, H'⟩ := @readLoop_spec _ fd s input delim (len - 1) [] buf H (by omega)
  have hle := length_readDelim_le delim (len - 1) input
  refine ⟨s', ?_, H'⟩
  generalize (CommandLine.readDelim delim (len - 1) input).1 = chunk at *
  have hdrop : buf.drop chunk.length = [buf[chunk.length]] ++ buf.drop (chunk.length + 1) :=
    List.drop_eq_getElem_cons (by omega)
  have hstore : storeBytes (chunk ++ ([buf[chunk.length]] ++ buf.drop (chunk.length + 1))) chunk.length [0] =
      some (chunk ++ ([0] ++ buf.drop (chunk.length + 1))) := storeBytes_append rfl rfl
  rw [List.length_nil, List.nil_append, List.nil_append, Nat.zero_add, hdrop] at hloop
  simp only [readDelim, hloop, Option.bind_eq_bind, Option.bind_some, hstore]
  rfl

/-- The chunks that calls of `ReadDelim` return are put together a beginning of the stream, which is all of it
after as many calls as it has bytes. Each fits the buffer with its zero, has the delimiter at its end only, is
not empty before the end of the stream, and fills the buffer unless it ends with the delimiter or the stream. -/
theorem readDelims_split (H : fd.Delivers s input) (hlen : 2 ≤ len) (hbuf : buf.length = len) (calls : Nat) :
    ∃ chunks last s' rest, fd.readDelims delim len calls buf s = some (chunks, last, s') ∧
      chunks.length = calls ∧ chunks.flatten ++ rest = input ∧ (input.length ≤ calls → rest = []) ∧
      ∀ k chunk, chunks[k]? = some chunk → chunk.length ≤ len - 1 ∧ delim ∉ chunk.dropLast ∧
        (chunk = [] → (chunks.take k).flatten = input) ∧
        (chunk.length < len - 1 → chunk.getLast? = some delim ∨ (chunks.take (k + 1)).flatten = input) := by
  induction calls generalizing buf s input with
  | zero =>
    refine ⟨[], buf, s, input, rfl, rfl, rfl, fun h => List.eq_nil_of_length_eq_zero (Nat.le_zero.mp h),
      fun k chunk hk => ?_⟩
    cases hk
  | succ calls ih =>
    obtain ⟨s₁, hread, H₁⟩ := @readDelim_spec _ fd s input buf delim len H (by omega) hbuf
    have happend := readDelim_append delim (len - 1) input
    have hle := length_readDelim_le delim (len - 1) input
    have hdelim := delim_notMem_dropLast delim (len - 1) input
    have hne := @readDelim_ne_nil delim (len - 1) input (by omega)
    have hshort := @short_readDelim delim (len - 1) input
    generalize (CommandLine.readDelim delim (len - 1) input).2 = input₁ at *
    generalize (CommandLine.readDelim delim (len - 1) input).1 = first at *
    have hbuf₁ : (first ++ 0 :: buf.drop (first.length + 1)).length = len := by
      rw [List.length_append, List.length_cons, List.length_drop]
      omega
    obtain ⟨chunks, last, s', rest, hreads, hlength, hflatten, hend, hchunks⟩ := ih H₁ hbuf₁
    refine ⟨first :: chunks, last, s', rest, ?_, ?_, ?_, ?_, fun k chunk hk => ?_⟩
    · rw [readDelims, hread, Option.bind_eq_bind, Option.bind_some]
      simp only [hreads, Option.bind_eq_bind, Option.bind_some, List.take_left]
    · rw [List.length_cons, hlength]
    · rw [List.flatten_cons, List.append_assoc, hflatten, happend]
    · intro hcalls
      refine hend ?_
      have hsum := congrArg List.length happend
      rw [List.length_append] at hsum
      by_cases hinput : input = []
      · rw [hinput, List.length_nil] at hsum
        omega
      · have hpos := List.length_pos_iff.mpr (hne hinput)
        omega
    · cases k with
      | zero =>
        obtain rfl := Option.some.inj hk
        refine ⟨hle, hdelim, fun hnil => ?_, fun hlt => (hshort hlt).imp_right fun hrest => ?_⟩
        · by_contra hinput
          exact hne (Ne.symm hinput) hnil
        · rw [hrest, List.append_nil] at happend
          rw [List.take_succ_cons, List.take_zero, List.flatten_singleton, happend]
      | succ k =>
        obtain ⟨hle', hdelim', hnil', hshort'⟩ := hchunks k chunk hk
        refine ⟨hle', hdelim', fun hnil => ?_, fun hlt => (hshort' hlt).imp_right fun hrest => ?_⟩
        · rw [List.take_succ_cons, List.flatten_cons, hnil' hnil, happend]
        · rw [List.take_succ_cons, List.flatten_cons, hrest, happend]

/-- The loop of `cat` prints what `cat` prints for the stream. -/
theorem catLoop_spec (H : fd.Delivers s input) (hbuf : buf.length = 1024) (hturns : input.length < turns) :
    fd.catLoop turns buf s =
      some ((CommandLine.catLoop turns input).map fun u8buf => u8buf.takeWhile (· ≠ 0)) := by
  induction turns generalizing buf s input with
  | zero => exact absurd hturns (Nat.not_lt_zero _)
  | succ turns ih =>
    obtain ⟨s₁, hread, H₁⟩ := @readDelim_spec _ fd s input buf newline 1024 H (by decide) hbuf
    have happend := readDelim_append newline 1023 input
    have hle := length_readDelim_le newline 1023 input
    have hne (hinput : input ≠ []) : (CommandLine.readDelim newline 1023 input).1 ≠ [] :=
      readDelim_ne_nil (by decide) hinput
    simp only [catLoop, CommandLine.catLoop, hread, Option.bind_eq_bind, Option.bind_some, Nat.add_one_sub_one]
    generalize (CommandLine.readDelim newline 1023 input).2 = input₁ at *
    generalize (CommandLine.readDelim newline 1023 input).1 = chunk at *
    by_cases hchunk : chunk = []
    · rw [if_pos (List.length_eq_zero_iff.mpr hchunk), if_pos hchunk]
      rfl
    · have hbuf₁ : (chunk ++ 0 :: buf.drop (chunk.length + 1)).length = 1024 := by
        rw [List.length_append, List.length_cons, List.length_drop]
        omega
      have hturns₁ : input₁.length < turns := by
        have hsum := congrArg List.length happend
        rw [List.length_append] at hsum
        have hpos := List.length_pos_iff.mpr hchunk
        omega
      rw [if_neg (fun h => hchunk (List.length_eq_zero_iff.mp h)), if_neg hchunk, ih H₁ hbuf₁ hturns₁,
        string_append_zero]
      rfl

/-- On a descriptor that delivers what the kernel reads, the loop of `cat` prints the texts of the command. -/
theorem catLoop_eq_catTexts (H : fd.Delivers s input) (hbuf : buf.length = 1024) :
    fd.catLoop (input.length + 1) buf s = some (Shell.catTexts input) :=
  catLoop_spec H hbuf (Nat.lt_succ_self _)

end Descriptor

/-! ## Files -/

section

open Fat FileDescriptor Bytes

/-- The descriptors of the files of a volume. -/
def fileDescriptor (vol : Volume) (buf : Nat → UInt8) : Descriptor FileDescriptor where
  read fd len := call vol fd (.read buf len)

/-- A file is delivered byte by byte. -/
theorem fileDescriptor_delivers {vol : Volume} {clusters : Nat} {r : EntryRef} {cs : List Nat}
    (hv : vol.WellFormed clusters) (hf : FileOf vol clusters r cs) (buf : Nat → UInt8) :
    (fileDescriptor vol buf).Delivers { fatEntry := r } (slice (contents vol cs) 0 (vol.entry r).fileSize) := by
  refine ⟨fun fd input => fd.fatEntry = r ∧ ∃ q ≤ (vol.entry r).fileSize, Reader vol cs fd q ∧
    input = slice (contents vol cs) q ((vol.entry r).fileSize - q), ?_, ?_⟩
  · exact ⟨rfl, 0, Nat.zero_le _, .fresh vol cs r, rfl⟩
  · rintro fd input ⟨rfl, q, hq, H, rfl⟩
    obtain ⟨buf', fd', hread, H', hent, hbytes⟩ := read_spec hv hf H hq buf 1
    refine ⟨fd', ?_, hent, _, ?_, H', ?_⟩
    · simp only [fileDescriptor, call, hread, hbytes, take_slice, Option.bind_eq_bind, Option.bind_some,
        Option.pure_def]
    · omega
    · rw [drop_slice]
      by_cases hend : q = (vol.entry fd.fatEntry).fileSize
      · rw [hend, Nat.sub_self, Nat.zero_sub, slice_zero, Nat.min_zero, Nat.add_zero, Nat.sub_self, slice_zero]
      · rw [Nat.min_eq_left (by omega), Nat.sub_sub]

/-- The lines of a file of two clusters, in a buffer of 16 bytes. -/
theorem readDelims_split_twoClusters : ∃ chunks last s',
    (fileDescriptor twoClusters fun _ => 0).readDelims newline 16 1024 (List.replicate 16 0)
        { fatEntry := ⟨2, 0⟩ } = some (chunks, last, s') ∧
      chunks.flatten = slice (contents twoClusters [3, 4]) 0 1024 ∧
      ∀ (k : Nat) (chunk : List UInt8), chunks[k]? = some chunk → chunk.length ≤ 15 ∧ newline ∉ chunk.dropLast := by
  have H := fileDescriptor_delivers twoClusters_wellFormed twoClusters_fileOf fun _ => 0
  obtain ⟨chunks, last, s', rest, hreads, -, hflatten, hend, hchunks⟩ :=
    @Descriptor.readDelims_split _ _ _ _ _ newline 16 H (by decide) (List.length_replicate ..) 1024
  rw [hend (length_slice 0 1024).le, List.append_nil] at hflatten
  exact ⟨chunks, last, s', hreads, hflatten, fun k chunk hk => ⟨(hchunks k chunk hk).1, (hchunks k chunk hk).2.1⟩⟩

end

end MikanOS.CommandLine
