import MikanOS.Library.Bytes
import MikanOS.Terminal.Printing

/-! # Decoding UTF-8

`ConvertUTF8To32` on the encoding of a character, and the loops of `Terminal::Print` and
`WriteString` on the encoding of a text. The standard encoding is that of the library,
`String.utf8EncodeChar`; its characters are the Unicode scalar values. -/

namespace MikanOS.CommandLine

open Bytes

/-- `static_cast<char32_t>(c)` for a `char`, which has a sign. -/
def char32 (c : UInt8) : BitVec 32 := c.toBitVec.signExtend 32

/-- The characters that a loop over a string decodes, and the byte that it has come to. -/
def decode (s : Nat → UInt8) (len : Option Nat) : (turns i : Nat) → List Nat × Nat
  | 0, i => ([], i)
  | turns + 1, i =>
    if More s len i then
      let (u32, bytes) := ConvertUTF8To32 fun k => s (i + k)
      let (rest, stop) := decode s len turns (i + bytes)
      (u32 :: rest, stop)
    else ([], i)

/-- The encoding of a text. -/
def utf8Encode (text : List Char) : List UInt8 := text.flatMap String.utf8EncodeChar

/-- The memory holds the encoding of a text and the terminating NUL. -/
def HoldsText (s : Nat → UInt8) (text : List Char) : Prop :=
  slice s 0 ((utf8Encode text).length + 1) = utf8Encode text ++ [0]

instance (s : Nat → UInt8) (text : List Char) : Decidable (HoldsText s text) :=
  inferInstanceAs (Decidable (_ = _))

variable {s : Nat → UInt8} {len : Option Nat} {i turns : Nat} {c : Char} {text : List Char}

/-! ## Masks -/

/-- A mask of the low bits takes the sign extension away. -/
theorem toNat_char32_and (c : UInt8) {k : Nat} (hk : k < 8) :
    (char32 c &&& BitVec.ofNat 32 (2 ^ k - 1)).toNat = c.toNat &&& (2 ^ k - 1) := by
  have hlt : 2 ^ k - 1 < 2 ^ 32 :=
    (Nat.sub_le _ _).trans_lt (Nat.pow_lt_pow_right (by decide) (by omega))
  refine Nat.eq_of_testBit_eq fun i => ?_
  rw [BitVec.toNat_and, Nat.testBit_and, Nat.testBit_and, BitVec.toNat_ofNat,
    Nat.mod_eq_of_lt hlt, Nat.testBit_two_pow_sub_one]
  rcases Nat.lt_or_ge i k with hi | hi
  · rw [← BitVec.getLsbD, char32, BitVec.getLsbD_signExtend, if_pos (hi.trans hk)]
    simp [show i < 32 by omega, BitVec.getLsbD]
  · simp [Nat.not_lt.mpr hi]

theorem toNat_char32_shift (c : UInt8) {k j : Nat} (hk : k < 8) (hj : k + j ≤ 32) :
    ((char32 c &&& BitVec.ofNat 32 (2 ^ k - 1)) <<< j).toNat = (c.toNat &&& (2 ^ k - 1)) <<< j := by
  have hlt : (c.toNat &&& (2 ^ k - 1)) * 2 ^ j < 2 ^ k * 2 ^ j := by
    rw [Nat.and_two_pow_sub_one_eq_mod]
    exact Nat.mul_lt_mul_of_pos_right (Nat.mod_lt _ (Nat.two_pow_pos k)) (Nat.two_pow_pos j)
  have hle : 2 ^ k * 2 ^ j ≤ 2 ^ 32 := by
    rw [← Nat.pow_add]
    exact Nat.pow_le_pow_right (by decide) hj
  rw [BitVec.toNat_shiftLeft, toNat_char32_and c hk, Nat.shiftLeft_eq, Nat.mod_eq_of_lt (by omega)]

/-- The first byte decides by its value. -/
theorem CountUTF8Size_toNat (c : UInt8) :
    CountUTF8Size c =
      if c.toNat < 0x80 then 1
      else if 0xc0 ≤ c.toNat ∧ c.toNat < 0xe0 then 2
      else if 0xe0 ≤ c.toNat ∧ c.toNat < 0xf0 then 3
      else if 0xf0 ≤ c.toNat ∧ c.toNat < 0xf8 then 4
      else 0 := by
  rw [CountUTF8Size]
  simp only [UInt8.lt_iff_toNat_lt, UInt8.le_iff_toNat_le]
  rfl

theorem CountUTF8Size_cases (c : UInt8) :
    (CountUTF8Size c = 1 ∧ c.toNat < 0x80) ∨ CountUTF8Size c = 2 ∨ CountUTF8Size c = 3 ∨
      CountUTF8Size c = 4 ∨ CountUTF8Size c = 0 := by
  rw [CountUTF8Size_toNat]
  split_ifs <;> simp [*]

/-- `ConvertUTF8To32` with the casts as the source has them. -/
theorem ConvertUTF8To32_char32 (u8 : Nat → UInt8) :
    ConvertUTF8To32 u8 =
      match CountUTF8Size (u8 0) with
      | 1 => ((char32 (u8 0)).toNat, 1)
      | 2 => (((char32 (u8 0) &&& 0x1f#32) <<< 6 ||| (char32 (u8 1) &&& 0x3f#32)).toNat, 2)
      | 3 => (((char32 (u8 0) &&& 0x0f#32) <<< 12 ||| (char32 (u8 1) &&& 0x3f#32) <<< 6 |||
          (char32 (u8 2) &&& 0x3f#32)).toNat, 3)
      | 4 => (((char32 (u8 0) &&& 0x07#32) <<< 18 ||| (char32 (u8 1) &&& 0x3f#32) <<< 12 |||
          (char32 (u8 2) &&& 0x3f#32) <<< 6 ||| (char32 (u8 3) &&& 0x3f#32)).toNat, 4)
      | _ => (0, 0) := by
  have low := fun c => toNat_char32_and c (show 6 < 8 by decide)
  have mid := fun c => toNat_char32_shift c (show 6 < 8 by decide) (show 6 + 6 ≤ 32 by decide)
  have high := fun c => toNat_char32_shift c (show 6 < 8 by decide) (show 6 + 12 ≤ 32 by decide)
  have two := toNat_char32_shift (u8 0) (show 5 < 8 by decide) (show 5 + 6 ≤ 32 by decide)
  have three := toNat_char32_shift (u8 0) (show 4 < 8 by decide) (show 4 + 12 ≤ 32 by decide)
  have four := toNat_char32_shift (u8 0) (show 3 < 8 by decide) (show 3 + 18 ≤ 32 by decide)
  norm_num only at low mid high two three four
  rcases CountUTF8Size_cases (u8 0) with ⟨h, hlt⟩ | h | h | h | h
  · have hmsb : (u8 0).toBitVec.msb = false := BitVec.msb_eq_false_iff_two_mul_lt.mpr (by
      rw [UInt8.toNat_toBitVec]
      omega)
    have hone : (char32 (u8 0)).toNat = (u8 0).toNat := by
      rw [char32, BitVec.signExtend_eq_setWidth_of_msb_false hmsb, BitVec.toNat_setWidth,
        UInt8.toNat_toBitVec, Nat.mod_eq_of_lt (by omega)]
    simp only [ConvertUTF8To32, h, hone]
  · simp only [ConvertUTF8To32, h, BitVec.toNat_or, low, two]
  · simp only [ConvertUTF8To32, h, BitVec.toNat_or, low, mid, three]
  · simp only [ConvertUTF8To32, h, BitVec.toNat_or, low, mid, high, four]
  · simp only [ConvertUTF8To32, h]

theorem shift_or {a b k : Nat} (hb : b < 2 ^ k) : a <<< k ||| b = a * 2 ^ k + b := by
  rw [← Nat.shiftLeft_add_eq_or_of_lt hb, Nat.shiftLeft_eq]

/-- The masks and shifts as arithmetic. -/
theorem ConvertUTF8To32_eq (u8 : Nat → UInt8) :
    ConvertUTF8To32 u8 =
      match CountUTF8Size (u8 0) with
      | 1 => ((u8 0).toNat, 1)
      | 2 => ((u8 0).toNat % 2 ^ 5 * 2 ^ 6 + (u8 1).toNat % 2 ^ 6, 2)
      | 3 => ((u8 0).toNat % 2 ^ 4 * 2 ^ 12 +
          ((u8 1).toNat % 2 ^ 6 * 2 ^ 6 + (u8 2).toNat % 2 ^ 6), 3)
      | 4 => ((u8 0).toNat % 2 ^ 3 * 2 ^ 18 + ((u8 1).toNat % 2 ^ 6 * 2 ^ 12 +
          ((u8 2).toNat % 2 ^ 6 * 2 ^ 6 + (u8 3).toNat % 2 ^ 6)), 4)
      | _ => (0, 0) := by
  have mask (c : UInt8) (k : Nat) := Nat.and_two_pow_sub_one_eq_mod c.toNat k
  have low (c : UInt8) : c.toNat % 2 ^ 6 < 2 ^ 6 := Nat.mod_lt _ (by decide)
  have mid (c d : UInt8) : c.toNat % 2 ^ 6 * 2 ^ 6 + d.toNat % 2 ^ 6 < 2 ^ 12 := by
    have := low c
    have := low d
    omega
  have high (c d e : UInt8) :
      c.toNat % 2 ^ 6 * 2 ^ 12 + (d.toNat % 2 ^ 6 * 2 ^ 6 + e.toNat % 2 ^ 6) < 2 ^ 18 := by
    have := low c
    have := mid d e
    omega
  have h6 : 0x3f = 2 ^ 6 - 1 := rfl
  rcases CountUTF8Size_cases (u8 0) with ⟨h, -⟩ | h | h | h | h
  · simp only [ConvertUTF8To32, h]
  · simp only [ConvertUTF8To32, h]
    rw [h6, show 0x1f = 2 ^ 5 - 1 from rfl, mask, mask, shift_or (low _)]
  · simp only [ConvertUTF8To32, h]
    rw [h6, show 0x0f = 2 ^ 4 - 1 from rfl, mask, mask, mask, Nat.or_assoc, shift_or (low _),
      shift_or (mid _ _)]
  · simp only [ConvertUTF8To32, h]
    rw [h6, show 0x07 = 2 ^ 3 - 1 from rfl, mask, mask, mask, mask, Nat.or_assoc, Nat.or_assoc,
      shift_or (low _), shift_or (mid _ _), shift_or (high _ _ _)]
  · simp only [ConvertUTF8To32, h]

/-! ## One character -/

/-- The encoding of a character, by the number of its bytes. -/
theorem utf8EncodeChar_cases (c : Char) :
    (c.toNat < 0x80 ∧ String.utf8EncodeChar c = [UInt8.ofNat c.toNat]) ∨
    ((0x80 ≤ c.toNat ∧ c.toNat < 0x800) ∧ String.utf8EncodeChar c =
      [UInt8.ofNat (c.toNat / 64 % 0x20 + 0xc0), UInt8.ofNat (c.toNat % 0x40 + 0x80)]) ∨
    ((0x800 ≤ c.toNat ∧ c.toNat < 0x10000) ∧ String.utf8EncodeChar c =
      [UInt8.ofNat (c.toNat / 4096 % 0x10 + 0xe0), UInt8.ofNat (c.toNat / 64 % 0x40 + 0x80),
        UInt8.ofNat (c.toNat % 0x40 + 0x80)]) ∨
    ((0x10000 ≤ c.toNat ∧ c.toNat < 0x200000) ∧ String.utf8EncodeChar c =
      [UInt8.ofNat (c.toNat / 262144 % 0x08 + 0xf0), UInt8.ofNat (c.toNat / 4096 % 0x40 + 0x80),
        UInt8.ofNat (c.toNat / 64 % 0x40 + 0x80), UInt8.ofNat (c.toNat % 0x40 + 0x80)]) := by
  have hvalid : c.toNat < 0x110000 := by
    rcases c.valid with h | ⟨-, h⟩
    · exact h.trans (by decide)
    · exact h
  rw [String.utf8EncodeChar, ← Char.toNat]
  split_ifs with h1 h2 h3
  · exact .inl ⟨by omega, rfl⟩
  · exact .inr (.inl ⟨by omega, rfl⟩)
  · exact .inr (.inr (.inl ⟨by omega, rfl⟩))
  · exact .inr (.inr (.inr ⟨by omega, rfl⟩))

theorem toNat_byte {u8 : Nat → UInt8} {bytes : List UInt8} {k b : Nat}
    (h : slice u8 0 bytes.length = bytes) (hk : bytes[k]? = some (UInt8.ofNat b)) (hb : b < 256) :
    (u8 k).toNat = b := by
  have hlt : k < bytes.length := (List.getElem?_eq_some_iff.mp hk).1
  rw [← h, slice, List.getElem?_map, List.getElem?_range hlt, Option.map_some, Nat.zero_add] at hk
  rw [Option.some.inj hk, UInt8.toNat_ofNat', Nat.mod_eq_of_lt hb]

/-- Decoding the encoding of a character gives the character and the number of its bytes. -/
theorem ConvertUTF8To32_utf8EncodeChar (u8 : Nat → UInt8)
    (h : slice u8 0 (String.utf8EncodeChar c).length = String.utf8EncodeChar c) :
    ConvertUTF8To32 u8 = (c.toNat, (String.utf8EncodeChar c).length) := by
  rcases utf8EncodeChar_cases c with ⟨hlt, henc⟩ | ⟨⟨hlo, hhi⟩, henc⟩ | ⟨⟨hlo, hhi⟩, henc⟩ |
    ⟨⟨hlo, hhi⟩, henc⟩
  · rw [henc] at h ⊢
    have h0 := toNat_byte h (k := 0) rfl (by omega)
    have hsize : CountUTF8Size (u8 0) = 1 := by rw [CountUTF8Size_toNat, h0, if_pos hlt]
    rw [ConvertUTF8To32_eq, hsize, h0]
    rfl
  · rw [henc] at h ⊢
    have h0 := toNat_byte h (k := 0) rfl (by omega)
    have h1 := toNat_byte h (k := 1) rfl (by omega)
    have hsize : CountUTF8Size (u8 0) = 2 := by
      rw [CountUTF8Size_toNat, h0, if_neg (by omega), if_pos (by omega)]
    have hvalue : (c.toNat / 64 % 32 + 192) % 2 ^ 5 * 2 ^ 6 + (c.toNat % 64 + 128) % 2 ^ 6 =
        c.toNat := by omega
    rw [ConvertUTF8To32_eq, hsize, h0, h1]
    exact Prod.ext hvalue rfl
  · rw [henc] at h ⊢
    have h0 := toNat_byte h (k := 0) rfl (by omega)
    have h1 := toNat_byte h (k := 1) rfl (by omega)
    have h2 := toNat_byte h (k := 2) rfl (by omega)
    have hsize : CountUTF8Size (u8 0) = 3 := by
      rw [CountUTF8Size_toNat, h0, if_neg (by omega), if_neg (by omega), if_pos (by omega)]
    have hvalue : (c.toNat / 4096 % 16 + 224) % 2 ^ 4 * 2 ^ 12 +
        ((c.toNat / 64 % 64 + 128) % 2 ^ 6 * 2 ^ 6 + (c.toNat % 64 + 128) % 2 ^ 6) = c.toNat := by omega
    rw [ConvertUTF8To32_eq, hsize, h0, h1, h2]
    exact Prod.ext hvalue rfl
  · rw [henc] at h ⊢
    have h0 := toNat_byte h (k := 0) rfl (by omega)
    have h1 := toNat_byte h (k := 1) rfl (by omega)
    have h2 := toNat_byte h (k := 2) rfl (by omega)
    have h3 := toNat_byte h (k := 3) rfl (by omega)
    have hsize : CountUTF8Size (u8 0) = 4 := by
      rw [CountUTF8Size_toNat, h0, if_neg (by omega), if_neg (by omega), if_neg (by omega),
        if_pos (by omega)]
    have hvalue : (c.toNat / 262144 % 8 + 240) % 2 ^ 3 * 2 ^ 18 +
        ((c.toNat / 4096 % 64 + 128) % 2 ^ 6 * 2 ^ 12 + ((c.toNat / 64 % 64 + 128) % 2 ^ 6 * 2 ^ 6 +
          (c.toNat % 64 + 128) % 2 ^ 6)) = c.toNat := by omega
    rw [ConvertUTF8To32_eq, hsize, h0, h1, h2, h3]
    exact Prod.ext hvalue rfl

/-- The encoding of a character other than NUL does not begin with a zero byte. -/
theorem head_utf8EncodeChar (hc : c ≠ '\x00') (u8 : Nat → UInt8)
    (h : slice u8 0 (String.utf8EncodeChar c).length = String.utf8EncodeChar c) : u8 0 ≠ 0 := by
  have hne : c.toNat ≠ 0 := fun h0 => hc (Char.ext (UInt32.toNat_inj.mp h0))
  have hconvert := ConvertUTF8To32_utf8EncodeChar u8 h
  intro h0
  have hzero : ConvertUTF8To32 u8 = (0, 1) := by rw [ConvertUTF8To32_eq, h0]; rfl
  rw [hzero] at hconvert
  exact hne (Prod.ext_iff.mp hconvert).1.symm

/-! ## The loops -/

theorem decode_of_more (h : More s len i) :
    decode s len (turns + 1) i =
      ((ConvertUTF8To32 fun k => s (i + k)).1 :: (decode s len turns (i + bytesAt s i)).1,
        (decode s len turns (i + bytesAt s i)).2) := if_pos h

theorem decode_of_not_more (h : ¬ More s len i) : decode s len turns i = ([], i) := by
  cases turns with
  | zero => rfl
  | succ turns => exact if_neg h

/-- `Print` prints the characters that the loop decodes. -/
theorem Terminal.printLoop_eq_decode (s : Nat → UInt8) (len : Option Nat) (turns i : Nat)
    (t : Terminal) : printLoop s len turns i t = (decode s len turns i).1.foldl printChar t := by
  induction turns generalizing i t with
  | zero => rfl
  | succ turns ih =>
    by_cases hmore : More s len i
    · rw [printLoop_of_more hmore, decode_of_more hmore, List.foldl_cons, ih]
    · rw [printLoop_of_not_more hmore, decode_of_not_more hmore, List.foldl_nil]

/-- `WriteString` writes the characters that the loop decodes. -/
theorem textCells_eq_decode (s : Nat → UInt8) (turns i : Nat) (x : Int) :
    (textCells s turns i x).map Prod.snd = (decode s none turns i).1 := by
  induction turns generalizing i x with
  | zero => rfl
  | succ turns ih =>
    rw [textCells]
    split
    · rename_i hzero
      rw [decode_of_not_more fun hmore => more_none.mp hmore hzero, List.map_nil]
    · rename_i hne
      rw [decode_of_more (more_none.mpr hne), List.map_cons, ih]
      rfl

/-- The loop from a place where the encoding of a text and the NUL behind it lie. The induction is on
the text. -/
theorem decode_eq (htext : '\x00' ∉ text)
    (hs : slice s i ((utf8Encode text).length + 1) = utf8Encode text ++ [0])
    (hlen : ∀ n ∈ len, i + (utf8Encode text).length ≤ n) (hturns : text.length ≤ turns) :
    decode s len turns i = (text.map Char.toNat, i + (utf8Encode text).length) := by
  induction text generalizing i turns with
  | nil =>
    have hzero : s i = 0 := by simpa [slice, utf8Encode] using hs
    rw [decode_of_not_more fun hmore => hmore.1 hzero]
    rfl
  | cons c text ih =>
    obtain ⟨hc, htext⟩ := not_or.mp (List.mem_cons.not.mp htext)
    obtain ⟨turns, rfl⟩ := Nat.exists_eq_add_of_lt (Nat.lt_of_lt_of_le (Nat.succ_pos _) hturns)
    have hcons : utf8Encode (c :: text) = String.utf8EncodeChar c ++ utf8Encode text :=
      List.flatMap_cons
    rw [hcons, List.length_append, Nat.add_assoc, slice_add, List.append_assoc] at hs
    obtain ⟨hchar, hrest⟩ := List.append_inj hs (length_slice ..)
    have hchar' : slice (fun k => s (i + k)) 0 (String.utf8EncodeChar c).length =
        String.utf8EncodeChar c := by simpa [slice] using hchar
    have hconvert := ConvertUTF8To32_utf8EncodeChar (fun k => s (i + k)) hchar'
    have hpos : 0 < (String.utf8EncodeChar c).length :=
      List.length_pos_of_ne_nil String.utf8EncodeChar_ne_nil
    rw [hcons, List.length_append] at hlen ⊢
    have hmore : More s len i := by
      refine ⟨head_utf8EncodeChar (Ne.symm hc) _ hchar', fun n hn => ?_⟩
      have := hlen n hn
      omega
    rw [decode_of_more hmore, bytesAt, hconvert,
      ih htext hrest (fun n hn => by have := hlen n hn; omega) (by simpa using hturns)]
    rw [List.map_cons, Nat.add_assoc]

/-- Decoding inverts encoding: over the encoding of a text without NUL, the loops of `Print` and of
`WriteString` go through exactly the characters of the text, and stop at the terminating NUL. -/
theorem decode_utf8Encode (text : List Char) (htext : '\x00' ∉ text) (s : Nat → UInt8)
    (hs : HoldsText s text) :
    (∀ turns ≥ text.length,
      decode s none turns 0 = (text.map Char.toNat, (utf8Encode text).length)) ∧
    s (utf8Encode text).length = 0 ∧
    (∀ (len : Option Nat), (∀ n ∈ len, (utf8Encode text).length ≤ n) → ∀ turns ≥ text.length,
      ∀ t : Terminal, t.printLoop s len turns 0 = (text.map Char.toNat).foldl Terminal.printChar t) ∧
    ∀ turns ≥ text.length, (textCells s turns 0 0).map Prod.snd = text.map Char.toNat := by
  refine ⟨fun turns hturns => ?_, ?_, fun len hlen turns hturns t => ?_, fun turns hturns => ?_⟩
  · rw [decode_eq htext hs (by simp) hturns, Nat.zero_add]
  · rw [HoldsText, slice_add] at hs
    simpa [slice] using (List.append_inj hs (length_slice ..)).2
  · rw [Terminal.printLoop_eq_decode, decode_eq htext hs (by simpa using hlen) hturns]
  · rw [textCells_eq_decode, decode_eq htext hs (by simp) hturns]

/-- A character of each length: `A`, `é`, `あ` and a character above the basic plane. -/
def sampleText : List Char := ['A', 'é', 'あ', '𝄞']

def sampleBytes (i : Nat) : UInt8 := (utf8Encode sampleText).getD i 0

theorem decode_utf8Encode_sampleText :
    (∀ turns ≥ sampleText.length, decode sampleBytes none turns 0 =
      (sampleText.map Char.toNat, (utf8Encode sampleText).length)) ∧
    sampleBytes (utf8Encode sampleText).length = 0 ∧
    (∀ (len : Option Nat), (∀ n ∈ len, (utf8Encode sampleText).length ≤ n) →
      ∀ turns ≥ sampleText.length, ∀ t : Terminal, t.printLoop sampleBytes len turns 0 =
        (sampleText.map Char.toNat).foldl Terminal.printChar t) ∧
    ∀ turns ≥ sampleText.length,
      (textCells sampleBytes turns 0 0).map Prod.snd = sampleText.map Char.toNat :=
  decode_utf8Encode sampleText (by decide) sampleBytes (by decide)

end MikanOS.CommandLine
