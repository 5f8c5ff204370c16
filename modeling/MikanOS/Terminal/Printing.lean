import MikanOS.Library.Stride
import MikanOS.Terminal.InputKey

/-! # Printing a string

The loops of `Terminal::Print` and `WriteString`: when they end, and which bytes they read. A string is given
by the memory from its first byte on. -/

namespace MikanOS.CommandLine

open Stride

/-- The test of the loop of `Print`. -/
def More (s : Nat → UInt8) (len : Option Nat) (i : Nat) : Prop := s i ≠ 0 ∧ ∀ n ∈ len, i < n

instance (s : Nat → UInt8) (len : Option Nat) : DecidablePred (More s len) := fun i =>
  inferInstanceAs (Decidable (s i ≠ 0 ∧ ∀ n ∈ len, i < n))

/-- The number of bytes that a turn moves on by. -/
def bytesAt (s : Nat → UInt8) (i : Nat) : Nat := (ConvertUTF8To32 fun k => s (i + k)).2

/-- The loop of `Print` ends. -/
def PrintEnds (s : Nat → UInt8) (len : Option Nat) : Prop := Ends (More s len) (bytesAt s) 0

/-- The loop of `WriteString` ends. -/
def WriteStringEnds (s : Nat → UInt8) : Prop := Ends (fun i => s i ≠ 0) (bytesAt s) 0

variable {s s' : Nat → UInt8} {len : Option Nat} {i z : Nat}

/-- The number depends on the first byte of the character. -/
theorem ConvertUTF8To32_snd (u8 : Nat → UInt8) : (ConvertUTF8To32 u8).2 = CountUTF8Size (u8 0) := by
  simp only [ConvertUTF8To32, CountUTF8Size]
  split_ifs <;> rfl

theorem bytesAt_eq (s : Nat → UInt8) (i : Nat) : bytesAt s i = CountUTF8Size (s i) :=
  ConvertUTF8To32_snd _

@[simp] theorem more_none : More s none i ↔ s i ≠ 0 := by simp [More]

theorem writeStringEnds_iff : WriteStringEnds s ↔ PrintEnds s none := by
  rw [WriteStringEnds, PrintEnds, ends_iff, ends_iff]
  constructor
  · rintro ⟨j, hj, h⟩
    exact ⟨j, hj.imp fun k _ hk => ⟨more_none.mpr hk, rfl⟩, fun hmore => h (more_none.mp hmore)⟩
  · rintro ⟨j, hj, h⟩
    exact ⟨j, hj.imp fun k _ hk => ⟨more_none.mp hk, rfl⟩, fun hmore => h (more_none.mpr hmore)⟩

namespace Terminal

theorem printLoop_of_more (h : More s len i) (turns : Nat) (t : Terminal) :
    printLoop s len (turns + 1) i t = printLoop s len turns (i + bytesAt s i)
      (t.printChar (ConvertUTF8To32 fun k => s (i + k)).1) := if_pos h

theorem printLoop_of_not_more (h : ¬More s len i) (turns : Nat) (t : Terminal) :
    printLoop s len turns i t = t := by
  cases turns with
  | zero => rfl
  | succ turns => exact if_neg h

/-- The last turn of the loop of `Print`. -/
theorem printLoop_succ (turns i : Nat) (t : Terminal) :
    printLoop s len (turns + 1) i t =
      if More s len (after (More s len) (bytesAt s) turns i) then
        (printLoop s len turns i t).printChar
          (ConvertUTF8To32 fun k => s (after (More s len) (bytesAt s) turns i + k)).1
      else printLoop s len turns i t := by
  induction turns generalizing i t with
  | zero => rfl
  | succ turns ih =>
    by_cases hmore : More s len i
    · rw [printLoop_of_more hmore, printLoop_of_more hmore, after, if_pos hmore]
      exact ih _ _
    · rw [printLoop_of_not_more hmore, printLoop_of_not_more hmore, after, if_neg hmore, if_neg hmore]

/-- Once the loop has ended, nothing more is printed. -/
theorem printLoop_eq_of_le {turns n : Nat} (t : Terminal)
    (h : ¬More s len (after (More s len) (bytesAt s) turns i)) (hle : turns ≤ n) :
    printLoop s len n i t = printLoop s len turns i t := by
  obtain ⟨k, rfl⟩ := Nat.exists_eq_add_of_le hle
  clear hle
  induction k with
  | zero => rfl
  | succ k ih =>
    have hstop : ¬More s len (after (More s len) (bytesAt s) (turns + k) i) := by
      rw [after_eq_of_le h (Nat.le_add_right turns k)]
      exact h
    rw [← Nat.add_assoc, printLoop_succ, if_neg hstop, ih]

end Terminal

/-- `WriteString` draws a character in each turn, until the loop ends. -/
theorem length_textCells (turns i : Nat) (x : Int) :
    (textCells s (turns + 1) i x).length =
      (textCells s turns i x).length + if s (after (fun i => s i ≠ 0) (bytesAt s) turns i) ≠ 0 then 1 else 0 := by
  induction turns generalizing i x with
  | zero =>
    rw [textCells, textCells, after]
    by_cases hzero : s i = 0
    · rw [if_pos hzero, if_neg (not_not_intro hzero)]
      rfl
    · rw [if_neg hzero, if_pos hzero]
      rfl
  | succ turns ih =>
    rw [textCells, textCells]
    by_cases hzero : s i = 0
    · rw [if_pos hzero, if_pos hzero, after, if_neg (not_not_intro hzero), if_neg (not_not_intro hzero)]
      rfl
    · rw [if_neg hzero, if_neg hzero, after, if_pos hzero, List.length_cons, List.length_cons, ih]
      exact Nat.add_right_comm _ _ _

/-! ## The end of the loops -/

/-- A character of the text begins at `i`. -/
def Begins (s : Nat → UInt8) : Nat → Prop := Visits (fun j => s j ≠ 0) (fun j => CountUTF8Size (s j)) 0

/-- The terminating NUL of the string is at `z`. -/
structure NulAt (s : Nat → UInt8) (z : Nat) : Prop where
  nul : s z = 0
  ne_zero : ∀ j < z, s j ≠ 0

/-- Each character of the string, up to the limit, begins with a byte that can begin one, and ends within
the string or behind the limit. -/
def Printable (s : Nat → UInt8) (len : Option Nat) (z : Nat) : Prop :=
  ∀ i, Begins s i → i < z → (∀ n ∈ len, i < n) →
    CountUTF8Size (s i) ≠ 0 ∧ (i + CountUTF8Size (s i) ≤ z ∨ ∃ n ∈ len, n ≤ i + CountUTF8Size (s i))

/-- The loop comes to the beginning of each character below the limit, and only the bytes up to it matter. -/
theorem Begins.visits (h : Begins s i) (hsame : ∀ j ≤ i, s' j = s j) (hlimit : ∀ n ∈ len, i < n) :
    Visits (More s' len) (bytesAt s') 0 i := by
  induction h with
  | start => exact .start
  | @turn j _ hmore ih =>
    have hle : j ≤ j + CountUTF8Size (s j) := Nat.le_add_right _ _
    have hbytes : bytesAt s' j = CountUTF8Size (s j) := by rw [bytesAt_eq, hsame j hle]
    have hmore' : More s' len j :=
      ⟨hsame j hle ▸ hmore, fun n hn => Nat.lt_of_le_of_lt hle (hlimit n hn)⟩
    rw [← hbytes]
    exact (ih (fun k hk => hsame k (Nat.le_trans hk hle))
      fun n hn => Nat.lt_of_le_of_lt hle (hlimit n hn)).turn hmore'

/-- In a printable string the loop stays at beginnings of characters. -/
theorem Printable.visits (h : Printable s len z) (hz : NulAt s z) (hsame : ∀ j ≤ z, s' j = s j)
    (hi : Visits (More s' len) (bytesAt s') 0 i) : (∃ n ∈ len, n ≤ i) ∨ i ≤ z ∧ Begins s i := by
  induction hi with
  | start => exact .inr ⟨Nat.zero_le z, .start⟩
  | @turn j _ hmore ih =>
    rcases ih with ⟨n, hn, hle⟩ | ⟨hle, hbegins⟩
    · exact absurd (hmore.2 n hn) (Nat.not_lt.mpr hle)
    · have hne : s j ≠ 0 := hsame j hle ▸ hmore.1
      have hlt : j < z := Nat.lt_of_le_of_ne hle fun hjz => hne (hjz ▸ hz.nul)
      rw [bytesAt_eq, hsame j hle]
      rcases (h j hbegins hlt hmore.2).2 with hend | hend
      · exact .inr ⟨hend, hbegins.turn hne⟩
      · exact .inl hend

/-- The loop of `Print` ends, whatever is behind the string, exactly if the string is printable. -/
theorem forall_printEnds_iff (hz : NulAt s z) :
    (∀ s', (∀ j ≤ z, s' j = s j) → PrintEnds s' len) ↔ Printable s len z := by
  constructor
  · intro hends i hbegins hlt hlimit
    -- behind the string there are bytes that begin no character
    let s' : Nat → UInt8 := fun j => if j ≤ z then s j else 0x80
    have hsame : ∀ j ≤ z, s' j = s j := fun j hj => if_pos hj
    have hend := hends s' hsame
    have hvisits : Visits (More s' len) (bytesAt s') 0 i :=
      hbegins.visits (fun j hj => hsame j (Nat.le_trans hj hlt.le)) hlimit
    have hbytes : bytesAt s' i = CountUTF8Size (s i) := by rw [bytesAt_eq, hsame i hlt.le]
    have hmore : More s' len i := ⟨(hsame i hlt.le).symm ▸ hz.ne_zero i hlt, hlimit⟩
    constructor
    · intro hsize
      exact not_ends_of_stuck hvisits hmore (hbytes.trans hsize) hend
    · by_contra! hover
      have hnext := hvisits.turn hmore
      rw [hbytes] at hnext
      have hfar : s' (i + CountUTF8Size (s i)) = 0x80 := if_neg (Nat.not_le.mpr hover.1)
      refine not_ends_of_stuck hnext ⟨?_, hover.2⟩ ?_ hend
      · rw [hfar]
        decide
      · rw [bytesAt_eq, hfar]
        decide
  · intro h s' hsame
    refine ends_of_lt (z := z) fun j hj hmore => ?_
    rcases h.visits hz hsame hj with ⟨n, hn, hle⟩ | ⟨hle, hbegins⟩
    · exact absurd (hmore.2 n hn) (Nat.not_lt.mpr hle)
    · have hne : s j ≠ 0 := hsame j hle ▸ hmore.1
      have hlt : j < z := Nat.lt_of_le_of_ne hle fun hjz => hne (hjz ▸ hz.nul)
      rw [bytesAt_eq, hsame j hle]
      exact ⟨Nat.pos_of_ne_zero (h j hbegins hlt hmore.2).1, hlt⟩

/-- Printing ends, whatever is behind the string, exactly if the string is printable. -/
theorem printing_ends_iff (hz : NulAt s z) (len : Option Nat) :
    ((∀ s', (∀ j ≤ z, s' j = s j) → PrintEnds s' len) ↔ Printable s len z) ∧
      ((∀ s', (∀ j ≤ z, s' j = s j) → WriteStringEnds s') ↔ Printable s none z) := by
  refine ⟨forall_printEnds_iff hz, ?_⟩
  simp only [writeStringEnds_iff]
  exact forall_printEnds_iff hz

/-- A byte of a character, as the beginning of a string. -/
theorem printing_ends_iff_tail :
    ((∀ s' : Nat → UInt8, (∀ j ≤ 1, s' j = ([0x80, 0] : List UInt8).getD j 0) → PrintEnds s' none) ↔
        Printable (([0x80, 0] : List UInt8).getD · 0) none 1) ∧
      ((∀ s' : Nat → UInt8, (∀ j ≤ 1, s' j = ([0x80, 0] : List UInt8).getD j 0) → WriteStringEnds s') ↔
        Printable (([0x80, 0] : List UInt8).getD · 0) none 1) :=
  printing_ends_iff ⟨rfl, by decide⟩ none

/-- At such a byte both loops stay for ever. -/
theorem tail_stuck : ¬∀ (s : Nat → UInt8) (z : Nat) (len : Option Nat), NulAt s z →
    PrintEnds s len ∧ WriteStringEnds s := by
  intro h
  have hends := (h (([0x80, 0] : List UInt8).getD · 0) 1 none ⟨rfl, by decide⟩).1
  exact not_ends_of_stuck .start ⟨by decide, fun n hn => by cases hn⟩ (by decide) hends

/-! ## The bytes that are read -/

/-- The addresses that `ConvertUTF8To32` reads; it reads the first byte in any case. -/
def utf8Reads (s : Nat → UInt8) (i : Nat) : List Nat := List.range' i (max 1 (bytesAt s i))

/-- The addresses that the loop of `Print` reads. The test reads the byte before it looks at the limit. -/
def printReads (s : Nat → UInt8) (len : Option Nat) : (turns i : Nat) → List Nat
  | 0, _ => []
  | turns + 1, i =>
    i :: if s i ≠ 0 ∧ ∀ n ∈ len, i < n then utf8Reads s i ++ printReads s len turns (i + bytesAt s i) else []

/-- The addresses that the loop of `WriteString` reads. -/
def writeStringReads (s : Nat → UInt8) : (turns i : Nat) → List Nat
  | 0, _ => []
  | turns + 1, i =>
    i :: if s i ≠ 0 then utf8Reads s i ++ writeStringReads s turns (i + bytesAt s i) else []

theorem writeStringReads_eq (turns i : Nat) : writeStringReads s turns i = printReads s none turns i := by
  induction turns generalizing i with
  | zero => rfl
  | succ turns ih => simp [writeStringReads, printReads, ih]

theorem mem_utf8Reads {a : Nat} : a ∈ utf8Reads s i ↔ i ≤ a ∧ a < i + max 1 (bytesAt s i) :=
  List.mem_range'_1

/-- `ConvertUTF8To32` reads no other bytes. -/
theorem ConvertUTF8To32_congr {u8 u8' : Nat → UInt8} (h : ∀ k < max 1 (CountUTF8Size (u8 0)), u8' k = u8 k) :
    ConvertUTF8To32 u8' = ConvertUTF8To32 u8 := by
  have hzero := h 0 (Nat.lt_of_lt_of_le Nat.one_pos (Nat.le_max_left _ _))
  simp only [ConvertUTF8To32, hzero]
  split <;> rename_i hsize
  · rfl
  · rw [h 1 (by rw [hsize]; decide)]
  · rw [h 1 (by rw [hsize]; decide), h 2 (by rw [hsize]; decide)]
  · rw [h 1 (by rw [hsize]; decide), h 2 (by rw [hsize]; decide), h 3 (by rw [hsize]; decide)]
  · rfl

/-- The loop of `Print` depends on no other bytes. -/
theorem Terminal.printLoop_congr {turns : Nat} (t : Terminal) (h : ∀ a ∈ printReads s len turns i, s' a = s a) :
    Terminal.printLoop s' len turns i t = Terminal.printLoop s len turns i t := by
  induction turns generalizing i t with
  | zero => rfl
  | succ turns ih =>
    rw [printReads, List.forall_mem_cons] at h
    obtain ⟨hi, h⟩ := h
    rw [Terminal.printLoop, Terminal.printLoop, hi]
    split
    · rename_i hmore
      rw [if_pos hmore, List.forall_mem_append] at h
      have hchar : (ConvertUTF8To32 fun k => s' (i + k)) = ConvertUTF8To32 fun k => s (i + k) := by
        refine ConvertUTF8To32_congr fun k hk => h.1 _ (mem_utf8Reads.mpr ⟨Nat.le_add_right i k, ?_⟩)
        rw [bytesAt_eq]
        exact Nat.add_lt_add_left hk i
      simp only [hchar]
      exact ih _ h.2
    · rfl

/-- The byte is in front of the limit, and not behind the first NUL. -/
structure InString (s : Nat → UInt8) (len : Option Nat) (a : Nat) : Prop where
  below : ∀ n ∈ len, a < n
  ne_zero : ∀ j < a, s j ≠ 0

/-- No character of the string begins with a byte that cannot begin one. -/
def ValidLeads (s : Nat → UInt8) (len : Option Nat) : Prop :=
  ∀ i, Begins s i → InString s len i → s i ≠ 0 → CountUTF8Size (s i) ≠ 0

/-- The NUL is in front of the limit, and no character is cut by it. -/
structure Uncut (s : Nat → UInt8) (len : Option Nat) : Prop where
  nul : ∀ n ∈ len, ∃ z < n, s z = 0
  whole : ∀ i, Begins s i → s i ≠ 0 → ∀ j, i ≤ j → j < i + CountUTF8Size (s i) → s j ≠ 0

/-- The test reads the byte at each place that the loop comes to. -/
theorem exists_printReads {j : Nat} (h : Visits (More s len) (bytesAt s) i j) :
    ∃ turns, j ∈ printReads s len turns i := by
  obtain ⟨turns, rfl⟩ := h.exists_after
  refine ⟨turns + 1, ?_⟩
  clear h
  induction turns generalizing i with
  | zero => exact List.mem_cons_self
  | succ turns ih =>
    by_cases hmore : More s len i
    · rw [after, if_pos hmore, printReads]
      refine List.mem_cons_of_mem _ ?_
      rw [if_pos (show s i ≠ 0 ∧ ∀ n ∈ len, i < n from hmore)]
      exact List.mem_append_right _ ih
    · rw [after, if_neg hmore, printReads]
      exact List.mem_cons_self

/-- What a loop that stays in `P` reads: the byte of the test and the bytes of the character. -/
theorem forall_printReads {P : Nat → Prop} (turns : Nat)
    (htest : ∀ j, Visits (More s len) (bytesAt s) i j → P j)
    (hchar : ∀ j, Visits (More s len) (bytesAt s) i j → More s len j → ∀ a ∈ utf8Reads s j, P a) :
    ∀ a ∈ printReads s len turns i, P a := by
  induction turns generalizing i with
  | zero => exact fun a ha => by cases ha
  | succ turns ih =>
    rw [printReads, List.forall_mem_cons]
    refine ⟨htest i .start, ?_⟩
    split
    · rename_i hmore
      rw [List.forall_mem_append]
      exact ⟨hchar i .start hmore, ih (fun j hj => htest j (.head hmore hj)) fun j hj => hchar j (.head hmore hj)⟩
    · exact fun a ha => by cases ha

/-- In an uncut string there is no NUL in front of the places that the loop comes to. -/
theorem Uncut.visits (h : Uncut s len) (hi : Visits (More s len) (bytesAt s) 0 i) :
    Begins s i ∧ ∀ j < i, s j ≠ 0 := by
  induction hi with
  | start => exact ⟨.start, fun j hj => absurd hj (Nat.not_lt_zero j)⟩
  | @turn k _ hmore ih =>
    obtain ⟨hbegins, hne⟩ := ih
    rw [bytesAt_eq]
    refine ⟨hbegins.turn hmore.1, fun j hj => ?_⟩
    rcases Nat.lt_or_ge j k with hlt | hge
    · exact hne j hlt
    · exact h.whole k hbegins hmore.1 j hge hj

/-- What is in front of the NUL is in front of the limit. -/
theorem Uncut.inString (h : Uncut s len) {a : Nat} (hne : ∀ j < a, s j ≠ 0) : InString s len a := by
  refine ⟨fun n hn => ?_, hne⟩
  obtain ⟨z, hz, hzero⟩ := h.nul n hn
  by_contra hge
  exact hne z (by omega) hzero

theorem Uncut.reads (h : Uncut s len) (turns : Nat) : ∀ a ∈ printReads s len turns 0, InString s len a := by
  refine forall_printReads turns (fun j hj => h.inString (h.visits hj).2) fun j hj hmore a ha => ?_
  obtain ⟨hbegins, hne⟩ := h.visits hj
  obtain ⟨hle, hlt⟩ := mem_utf8Reads.mp ha
  rw [bytesAt_eq] at hlt
  refine h.inString fun k hk => ?_
  rcases Nat.lt_or_ge k j with hkj | hkj
  · exact hne k hkj
  · exact h.whole j hbegins hmore.1 k hkj (by omega)

/-- A loop that reads its string only comes to each character of the string. -/
theorem visits_of_reads (h : ∀ turns, ∀ a ∈ printReads s len turns 0, InString s len a) (hi : Begins s i) :
    Visits (More s len) (bytesAt s) 0 i := by
  induction hi with
  | start => exact .start
  | @turn j _ hne ih =>
    obtain ⟨turns, hj⟩ := exists_printReads ih
    have hturn := ih.turn ⟨hne, (h turns j hj).below⟩
    rwa [bytesAt_eq] at hturn

/-- The loop of `Print` reads its string only exactly if the string is uncut. -/
theorem forall_printReads_iff (hleads : ValidLeads s len) :
    (∀ turns, ∀ a ∈ printReads s len turns 0, InString s len a) ↔ Uncut s len := by
  constructor
  · intro h
    have hin : ∀ {j}, Visits (More s len) (bytesAt s) 0 j → InString s len j := fun hj => by
      obtain ⟨turns, hread⟩ := exists_printReads hj
      exact h turns _ hread
    refine ⟨fun n hn => ?_, fun i hbegins hne j hle hlt => ?_⟩
    · have hends : Ends (More s len) (bytesAt s) 0 := by
        refine ends_of_lt (z := n) fun j hj hmore => ?_
        refine ⟨?_, (hin hj).below n hn⟩
        rw [bytesAt_eq]
        have hbegins : Begins s j := hj.imp fun k _ hk => ⟨hk.1, (bytesAt_eq s k).symm⟩
        exact Nat.pos_of_ne_zero (hleads j hbegins (hin hj) hmore.1)
      obtain ⟨z, hz, hstop⟩ := ends_iff.mp hends
      refine ⟨z, (hin hz).below n hn, ?_⟩
      by_contra hne
      exact hstop ⟨hne, (hin hz).below⟩
    · have hvisits := visits_of_reads h (hbegins.turn hne)
      exact (hin hvisits).ne_zero j hlt
  · exact Uncut.reads

/-- Printing reads its string only exactly if the terminating NUL is in front of the limit and cuts no
character. -/
theorem printing_reads_iff (hprint : ValidLeads s len) (hwrite : ValidLeads s' none) :
    ((∀ turns, ∀ a ∈ printReads s len turns 0, InString s len a) ↔ Uncut s len) ∧
      ((∀ turns, ∀ a ∈ writeStringReads s' turns 0, InString s' none a) ↔ Uncut s' none) := by
  simp only [writeStringReads_eq]
  exact ⟨forall_printReads_iff hprint, forall_printReads_iff hwrite⟩

/-- One letter, and a Japanese character of which the last byte is missing. -/
def letter (i : Nat) : UInt8 := ([0x41, 0] : List UInt8).getD i 0

def cutCharacter (i : Nat) : UInt8 := ([0xe3, 0x81, 0] : List UInt8).getD i 0

theorem validLeads_letter (len : Option Nat) : ValidLeads letter len := by
  intro i _ _ hne
  match i with
  | 0 => decide
  | i + 1 => exact absurd (by cases i <;> rfl) hne

theorem validLeads_cutCharacter : ValidLeads cutCharacter none := by
  intro i hi _ hne
  match i with
  | 0 => decide
  | 1 =>
    -- the second byte belongs to the first character
    have hfar : ∀ j, Begins cutCharacter j → j = 0 ∨ 3 ≤ j := fun j hj => by
      induction hj with
      | start => exact .inl rfl
      | @turn k _ _ ih =>
        rcases ih with rfl | hk
        · exact .inr (by decide)
        · exact .inr (Nat.le_trans hk (Nat.le_add_right _ _))
    have := hfar 1 hi
    omega
  | i + 2 => exact absurd (by cases i <;> rfl) hne

theorem printing_reads_iff_letter :
    ((∀ turns, ∀ a ∈ printReads letter (some 1) turns 0, InString letter (some 1) a) ↔
        Uncut letter (some 1)) ∧
      ((∀ turns, ∀ a ∈ writeStringReads cutCharacter turns 0, InString cutCharacter none a) ↔
        Uncut cutCharacter none) :=
  printing_reads_iff (validLeads_letter _) validLeads_cutCharacter

/-- `Print` of one letter with the limit 1 reads the byte behind it, and `WriteString` of the cut character
goes on behind the NUL. -/
theorem printing_reads_past :
    (¬∀ (s : Nat → UInt8) (len : Option Nat), ValidLeads s len →
      ∀ turns, ∀ a ∈ printReads s len turns 0, InString s len a) ∧
    ¬∀ s : Nat → UInt8, ValidLeads s none →
      ∀ turns, ∀ a ∈ writeStringReads s turns 0, InString s none a := by
  constructor
  · intro h
    have hin := h letter (some 1) (validLeads_letter _) 2 1 (by decide)
    exact absurd (hin.below 1 rfl) (Nat.lt_irrefl 1)
  · intro h
    have hin := h cutCharacter validLeads_cutCharacter 2 3 (by decide)
    exact hin.ne_zero 2 (by decide) rfl

end MikanOS.CommandLine
