import MikanOS.Terminal.LoadElf

/-! # Loading the kernel

`Main.c` of the boot loader reads the kernel file into a buffer, allocates the pages that its segments ask for,
copies the segments there, gives the buffer back and reads the entry point from the copy. -/

namespace MikanOS.BootLoader

open FlatMemory Elf

/-- `e_entry`. -/
def e_entry (m : FlatMemory.Memory) (ehdr : Nat) : Nat := load m (ehdr + 24) 8

variable (m : FlatMemory.Memory) (ehdr : Nat)

/-- A turn of the loop of `CalcLoadAddressRange`. -/
def widen (range : Nat × Nat) (i : Nat) : Nat × Nat :=
  let phdr := GetProgramHeader m ehdr
  if p_type m phdr i ≠ PT_LOAD then range
  else (min range.1 (p_vaddr m phdr i), max range.2 ((p_vaddr m phdr i + p_memsz m phdr i) % 2 ^ 64))

/-- `CalcLoadAddressRange`: `first` and `last`. -/
def CalcLoadAddressRange : Nat × Nat := (List.range (e_phnum m ehdr)).foldl (widen m ehdr) (2 ^ 64 - 1, 0)

/-- The `CopyMem` and the `SetMem` of a segment. -/
def copySegment (phdr i : Nat) : FlatMemory.Memory :=
  let src := (ehdr + p_offset m phdr i) % 2 ^ 64
  let remainBytes := (p_memsz m phdr i + 2 ^ 64 - p_filesz m phdr i) % 2 ^ 64
  fill (copy m (p_vaddr m phdr i) src (p_filesz m phdr i)) ((p_vaddr m phdr i + p_filesz m phdr i) % 2 ^ 64) 0
    remainBytes

/-- The loop of `CopyLoadSegments`, with a bound on its turns. It reads the headers anew in each turn. -/
def copyLoop (phdr : Nat) : (turns i : Nat) → FlatMemory.Memory → FlatMemory.Memory
  | 0, _, m => m
  | turns + 1, i, m =>
    if i < e_phnum m ehdr then
      copyLoop phdr turns (i + 1) (if p_type m phdr i ≠ PT_LOAD then m else copySegment m ehdr phdr i)
    else m

/-- `CopyLoadSegments`. -/
def CopyLoadSegments : FlatMemory.Memory := copyLoop ehdr (GetProgramHeader m ehdr) (2 ^ 16) 0 m

/-- `num_pages`. -/
def numPages : Nat :=
  let (first, last) := CalcLoadAddressRange m ehdr
  (last + 2 ^ 64 - first + 0xfff) % 2 ^ 64 / 0x1000

/-- From `CalcLoadAddressRange` to `CopyLoadSegments`. `none`: `AllocatePages` fails for the address and the number
of pages, and the loader halts. -/
def loadKernel (allocatePages : Nat → Nat → Bool) : Option FlatMemory.Memory :=
  if allocatePages (CalcLoadAddressRange m ehdr).1 (numPages m ehdr) then some (CopyLoadSegments m ehdr) else none

/-- `entry_addr`. -/
def entryAddr (first : Nat) : Nat := load m (first + 24) 8

/-! ## The kernel file -/

/-- A segment to be loaded. -/
def Loads (i : Nat) : Prop := i < e_phnum m ehdr ∧ p_type m (GetProgramHeader m ehdr) i = PT_LOAD

/-- The part of memory that a segment asks for. -/
def InSegment (i a : Nat) : Prop :=
  p_vaddr m (GetProgramHeader m ehdr) i ≤ a ∧
    a < p_vaddr m (GetProgramHeader m ehdr) i + p_memsz m (GetProgramHeader m ehdr) i

/-- An executable in the `len` bytes from `ehdr` on: its headers and what it loads are in the file, and no two
segments ask for the same place. -/
structure KernelFile (len : Nat) : Prop where
  place : ehdr + len ≤ 2 ^ 64
  header : 64 ≤ len
  programHeaders : e_phoff m ehdr + 56 * e_phnum m ehdr ≤ len
  offset : ∀ i, Loads m ehdr i →
    p_offset m (GetProgramHeader m ehdr) i + p_filesz m (GetProgramHeader m ehdr) i ≤ len
  filesz : ∀ i, Loads m ehdr i → p_filesz m (GetProgramHeader m ehdr) i ≤ p_memsz m (GetProgramHeader m ehdr) i
  memsz : ∀ i, Loads m ehdr i →
    p_vaddr m (GetProgramHeader m ehdr) i + p_memsz m (GetProgramHeader m ehdr) i + 0xfff < 2 ^ 64
  apart : ∀ i j a, Loads m ehdr i → Loads m ehdr j → InSegment m ehdr i a → InSegment m ehdr j a → i = j

/-- The pages that are allocated. -/
def InPages (a : Nat) : Prop :=
  (CalcLoadAddressRange m ehdr).1 ≤ a ∧ a < (CalcLoadAddressRange m ehdr).1 + 0x1000 * numPages m ehdr

/-- What a segment has at an address: the bytes of the file, and zeros behind them. -/
def segmentByte (i a : Nat) : UInt8 :=
  let phdr := GetProgramHeader m ehdr
  if a < p_vaddr m phdr i + p_filesz m phdr i then m (ehdr + p_offset m phdr i + (a - p_vaddr m phdr i)) else 0

variable {m ehdr} {m' : FlatMemory.Memory} {len i a : Nat}

/-! ## The range -/

theorem widen_spec (n : Nat) {b : Nat} (hb : ∀ i < n, p_type m (GetProgramHeader m ehdr) i = PT_LOAD →
      (p_vaddr m (GetProgramHeader m ehdr) i + p_memsz m (GetProgramHeader m ehdr) i) % 2 ^ 64 ≤ b) :
    let range := (List.range n).foldl (widen m ehdr) (2 ^ 64 - 1, 0)
    range.2 ≤ b ∧ ∀ i < n, p_type m (GetProgramHeader m ehdr) i = PT_LOAD →
      range.1 ≤ p_vaddr m (GetProgramHeader m ehdr) i ∧
      (p_vaddr m (GetProgramHeader m ehdr) i + p_memsz m (GetProgramHeader m ehdr) i) % 2 ^ 64 ≤ range.2 := by
  induction n with
  | zero => exact ⟨Nat.zero_le _, fun _ h => absurd h (Nat.not_lt_zero _)⟩
  | succ n ih =>
    obtain ⟨hlast, hall⟩ := ih fun i hi => hb i (Nat.lt_succ_of_lt hi)
    rw [List.range_succ, List.foldl_append, List.foldl_cons, List.foldl_nil]
    generalize (List.range n).foldl (widen m ehdr) (2 ^ 64 - 1, 0) = range at *
    simp only [widen]
    split
    · next hskip =>
      refine ⟨hlast, fun i hi hload => ?_⟩
      rcases Nat.lt_succ_iff_lt_or_eq.mp hi with hlt | rfl
      · exact hall i hlt hload
      · exact absurd hload hskip
    · next hload =>
      refine ⟨max_le hlast (hb n (Nat.lt_succ_self n) (not_not.mp hload)), fun i hi hload => ?_⟩
      rcases Nat.lt_succ_iff_lt_or_eq.mp hi with hlt | rfl
      · obtain ⟨hle, hge⟩ := hall i hlt hload
        exact ⟨(min_le_left _ _).trans hle, hge.trans (le_max_left _ _)⟩
      · exact ⟨min_le_right _ _, le_max_right _ _⟩

/-- The pages have room for every segment. -/
theorem KernelFile.inPages (h : KernelFile m ehdr len) (hi : Loads m ehdr i) (ha : InSegment m ehdr i a) :
    InPages m ehdr a := by
  have hb : ∀ j < e_phnum m ehdr, p_type m (GetProgramHeader m ehdr) j = PT_LOAD →
      (p_vaddr m (GetProgramHeader m ehdr) j + p_memsz m (GetProgramHeader m ehdr) j) % 2 ^ 64 ≤
        2 ^ 64 - 1 - 0xfff := by
    intro j hj hload
    have := h.memsz j ⟨hj, hload⟩
    omega
  obtain ⟨hbound, hall⟩ := widen_spec (e_phnum m ehdr) hb
  obtain ⟨hfirst, hlast⟩ := hall i hi.1 hi.2
  have hend := h.memsz i hi
  obtain ⟨hlow, hhigh⟩ := ha
  rw [InPages, numPages, CalcLoadAddressRange]
  dsimp only
  omega

/-! ## The segments -/

/-- A segment that is copied from the buffer. -/
theorem copySegment_apply {t : FlatMemory.Memory} {phdr : Nat}
    (hend : p_vaddr t phdr i + p_memsz t phdr i < 2 ^ 64) (hfilesz : p_filesz t phdr i ≤ p_memsz t phdr i)
    (hfile : ehdr + p_offset t phdr i + p_filesz t phdr i ≤ 2 ^ 64) (ha : a < 2 ^ 64) :
    copySegment t ehdr phdr i a =
      if p_vaddr t phdr i ≤ a ∧ a < p_vaddr t phdr i + p_memsz t phdr i then
        if a < p_vaddr t phdr i + p_filesz t phdr i then t (ehdr + p_offset t phdr i + (a - p_vaddr t phdr i))
        else 0
      else t a := by
  simp only [copySegment, fill, copy]
  generalize p_vaddr t phdr i = vaddr, p_memsz t phdr i = memsz, p_filesz t phdr i = filesz,
    p_offset t phdr i = offset at *
  by_cases hin : vaddr ≤ a ∧ a < vaddr + memsz
  · rw [if_pos hin]
    by_cases hcopied : a < vaddr + filesz
    · rw [if_neg (by omega), if_pos (by omega), if_pos hcopied]
      refine congrArg t ?_
      omega
    · rw [if_pos (by omega), if_neg hcopied]
  · rw [if_neg (by omega), if_neg (by omega), if_neg hin]

/-- The headers, in a memory that has the same buffer. -/
theorem KernelFile.same (h : KernelFile m ehdr len) (hm : ∀ b, ehdr ≤ b → b < ehdr + len → m' b = m b) :
    e_phnum m' ehdr = e_phnum m ehdr ∧ ∀ i < e_phnum m ehdr,
      p_type m' (GetProgramHeader m ehdr) i = p_type m (GetProgramHeader m ehdr) i ∧
      p_offset m' (GetProgramHeader m ehdr) i = p_offset m (GetProgramHeader m ehdr) i ∧
      p_vaddr m' (GetProgramHeader m ehdr) i = p_vaddr m (GetProgramHeader m ehdr) i ∧
      p_filesz m' (GetProgramHeader m ehdr) i = p_filesz m (GetProgramHeader m ehdr) i ∧
      p_memsz m' (GetProgramHeader m ehdr) i = p_memsz m (GetProgramHeader m ehdr) i := by
  obtain ⟨hplace, hheader, hheaders, -, -, -, -⟩ := h
  refine ⟨load_eq hm hplace (by omega) (by omega), fun i hi => ?_⟩
  have hget : GetProgramHeader m ehdr = ehdr + e_phoff m ehdr := Nat.mod_eq_of_lt (by omega)
  have hat : phdrAt (GetProgramHeader m ehdr) i + 56 ≤ ehdr + len ∧ ehdr ≤ phdrAt (GetProgramHeader m ehdr) i := by
    rw [phdrAt, hget]
    omega
  refine ⟨load_eq hm hplace ?_ ?_, load_eq hm hplace ?_ ?_, load_eq hm hplace ?_ ?_, load_eq hm hplace ?_ ?_,
    load_eq hm hplace ?_ ?_⟩ <;> omega

/-- What `n` turns have done. -/
structure Copied (m : FlatMemory.Memory) (ehdr n : Nat) (t : FlatMemory.Memory) : Prop where
  loaded : ∀ i < n, Loads m ehdr i → ∀ a, InSegment m ehdr i a → t a = segmentByte m ehdr i a
  kept : ∀ a < 2 ^ 64, ¬InPages m ehdr a → t a = m a

theorem Copied.turn {n : Nat} {t : FlatMemory.Memory} (H : Copied m ehdr n t) (h : KernelFile m ehdr len)
    (hbuffer : ∀ b, ehdr ≤ b → b < ehdr + len → ¬InPages m ehdr b) (hn : n < e_phnum m ehdr) :
    Copied m ehdr (n + 1) (if p_type t (GetProgramHeader m ehdr) n ≠ PT_LOAD then t
      else copySegment t ehdr (GetProgramHeader m ehdr) n) := by
  have hplace := h.place
  have hsame : ∀ b, ehdr ≤ b → b < ehdr + len → t b = m b := fun b hb hlt =>
    H.kept b (by omega) (hbuffer b hb hlt)
  obtain ⟨htype, hoffset, hvaddr, hfilesz, hmemsz⟩ := (h.same hsame).2 n hn
  rw [htype]
  split
  · next hskip =>
    refine ⟨fun i hi hload => ?_, H.kept⟩
    rcases Nat.lt_succ_iff_lt_or_eq.mp hi with hlt | rfl
    · exact H.loaded i hlt hload
    · exact absurd hload.2 hskip
  · next htype =>
    have hload : Loads m ehdr n := ⟨hn, not_not.mp htype⟩
    have hoff := h.offset n hload
    have hend := h.memsz n hload
    have hsegment : ∀ a < 2 ^ 64, (InSegment m ehdr n a →
        copySegment t ehdr (GetProgramHeader m ehdr) n a = segmentByte m ehdr n a) ∧
        (¬InSegment m ehdr n a → copySegment t ehdr (GetProgramHeader m ehdr) n a = t a) := by
      intro a ha
      have happly := @copySegment_apply ehdr n a t (GetProgramHeader m ehdr) (by omega)
        (by rw [hfilesz, hmemsz]; exact h.filesz n hload) (by omega) ha
      rw [hvaddr, hmemsz, hfilesz, hoffset] at happly
      constructor
      · rintro ⟨hlow, hhigh⟩
        rw [happly, if_pos ⟨hlow, hhigh⟩, segmentByte]
        split
        · exact hsame _ (by omega) (by omega)
        · rfl
      · intro hout
        exact happly.trans (if_neg hout)
    refine ⟨fun i hi hloadi a ha => ?_, fun a ha hout => ?_⟩
    · have hlt : a < 2 ^ 64 := by
        have := h.memsz i hloadi
        have := ha.2
        omega
      rcases Nat.lt_succ_iff_lt_or_eq.mp hi with hin | rfl
      · rw [(hsegment a hlt).2 fun hn => hin.ne (h.apart i n a hloadi hload ha hn)]
        exact H.loaded i hin hloadi a ha
      · exact (hsegment a hlt).1 ha
    · rw [(hsegment a ha).2 fun hn => hout (h.inPages hload hn)]
      exact H.kept a ha hout

theorem Copied.loop {n turns : Nat} {t : FlatMemory.Memory} (H : Copied m ehdr n t) (h : KernelFile m ehdr len)
    (hbuffer : ∀ b, ehdr ≤ b → b < ehdr + len → ¬InPages m ehdr b) (hn : n ≤ e_phnum m ehdr)
    (hturns : e_phnum m ehdr ≤ n + turns) :
    Copied m ehdr (e_phnum m ehdr) (copyLoop ehdr (GetProgramHeader m ehdr) turns n t) := by
  have hplace := h.place
  induction turns generalizing n t with
  | zero =>
    obtain rfl : n = e_phnum m ehdr := by omega
    exact H
  | succ turns ih =>
    have hsame : ∀ b, ehdr ≤ b → b < ehdr + len → t b = m b := fun b hb hlt =>
      H.kept b (by omega) (hbuffer b hb hlt)
    rw [copyLoop, (h.same hsame).1]
    split
    · next hlt => exact ih (H.turn h hbuffer hlt) hlt (by omega)
    · next hge =>
      obtain rfl : n = e_phnum m ehdr := by omega
      exact H

/-- A kernel of one segment at 1 MiB, in a buffer at 2 MiB. -/
def smallKernel : FlatMemory.Memory := executable [loadHeader 0 0x100000 120 4096]

theorem smallKernel_file : KernelFile smallKernel 0x200000 120 := by
  have hnum : e_phnum smallKernel 0x200000 = 1 := by decide +kernel
  have hzero : ∀ {i}, Loads smallKernel 0x200000 i → i = 0 := fun h => Nat.lt_one_iff.mp (hnum ▸ h.1)
  refine ⟨by decide, by decide, by decide +kernel, fun i hi => ?_, fun i hi => ?_, fun i hi => ?_,
    fun i j a hi hj _ _ => (hzero hi).trans (hzero hj).symm⟩
  all_goals
    obtain rfl := hzero hi
    decide +kernel

end MikanOS.BootLoader
