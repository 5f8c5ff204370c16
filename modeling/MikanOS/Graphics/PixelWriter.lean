import Mathlib

/-! # Drawing

The drawing functions of `graphics.cpp` and `font.cpp` as the lists of the positions that they write
to, in order. Coordinates are of the type `int`. -/

namespace MikanOS

/-- The value of the type `int` that is congruent to `v`. -/
def wrap32 (v : Int) : Int := (v + 2 ^ 31) % 2 ^ 32 - 2 ^ 31

/-- `Vector2D<int>`. -/
@[ext] structure Vector2D where
  x : Int
  y : Int
  deriving DecidableEq

namespace Vector2D

instance : Add Vector2D := ⟨fun a b => ⟨wrap32 (a.x + b.x), wrap32 (a.y + b.y)⟩⟩

instance : Sub Vector2D := ⟨fun a b => ⟨wrap32 (a.x - b.x), wrap32 (a.y - b.y)⟩⟩

@[simp] theorem add_x (a b : Vector2D) : (a + b).x = wrap32 (a.x + b.x) := rfl
@[simp] theorem add_y (a b : Vector2D) : (a + b).y = wrap32 (a.y + b.y) := rfl
@[simp] theorem sub_x (a b : Vector2D) : (a - b).x = wrap32 (a.x - b.x) := rfl
@[simp] theorem sub_y (a b : Vector2D) : (a - b).y = wrap32 (a.y - b.y) := rfl

end Vector2D

theorem wrap32_of_range {v : Int} (h : -2 ^ 31 ≤ v) (h' : v < 2 ^ 31) : wrap32 v = v := by
  rw [wrap32]
  omega

@[simp] theorem wrap32_wrap32 (v : Int) : wrap32 (wrap32 v) = wrap32 v := by
  simp only [wrap32]
  omega

theorem wrap32_add_wrap32 (v w : Int) : wrap32 (wrap32 v + w) = wrap32 (v + w) := by
  simp only [wrap32]
  omega

/-- `FillRectangle`. -/
def FillRectangle (pos size : Vector2D) : List Vector2D :=
  (List.range size.y.toNat).flatMap fun (dy : Nat) =>
    (List.range size.x.toNat).map fun (dx : Nat) => pos + ⟨dx, dy⟩

/-! ## Text -/

/-- A bitmap of FreeType with its place relative to the pen. -/
structure Glyph where
  topleft : Vector2D
  rows : Nat
  width : Nat
  bit : (dx dy : Nat) → Bool
  rows_lt : rows < 2 ^ 31
  width_lt : width < 2 ^ 31

/-- The font data that is linked in, and FreeType with the font of the volume: `NewFTFace` and
`RenderUnicode` either give a glyph or fail. -/
structure Font where
  GetFont : Nat → Option (Nat → UInt8)
  RenderUnicode : Nat → Option Glyph

/-- The pixels of a character of the linked font. -/
def asciiPixels (font : Nat → UInt8) : List Vector2D :=
  (List.range 16).flatMap fun (dy : Nat) =>
    ((List.range 8).filter fun dx => ((font dy).toNat <<< dx) &&& 0x80 ≠ 0).map fun (dx : Nat) =>
      ⟨dx, dy⟩

def Glyph.pixels (glyph : Glyph) : List Vector2D :=
  (List.range glyph.rows).flatMap fun (dy : Nat) =>
    ((List.range glyph.width).filter fun dx => glyph.bit dx dy).map fun (dx : Nat) => ⟨dx, dy⟩

/-- `WriteAscii`. -/
def WriteAscii (font : Font) (pos : Vector2D) (c : Nat) : List Vector2D :=
  match font.GetFont c with
  | none => []
  | some bitmap => (asciiPixels bitmap).map (pos + ·)

/-- `WriteUnicode`; what FreeType cannot render becomes two question marks. -/
def WriteUnicode (font : Font) (pos : Vector2D) (c : Nat) : List Vector2D :=
  if c ≤ 0x7f then WriteAscii font pos c
  else
    match font.RenderUnicode c with
    | none => WriteAscii font pos 0x3f ++ WriteAscii font (pos + ⟨8, 0⟩) 0x3f
    | some glyph => glyph.pixels.map (pos + glyph.topleft + ·)

/-- `CountUTF8Size`. -/
def CountUTF8Size (c : UInt8) : Nat :=
  if c < 0x80 then 1
  else if 0xc0 ≤ c ∧ c < 0xe0 then 2
  else if 0xe0 ≤ c ∧ c < 0xf0 then 3
  else if 0xf0 ≤ c ∧ c < 0xf8 then 4
  else 0

/-- `ConvertUTF8To32`: the character and the number of its bytes. -/
def ConvertUTF8To32 (u8 : Nat → UInt8) : Nat × Nat :=
  let u (i : Nat) : Nat := (u8 i).toNat
  match CountUTF8Size (u8 0) with
  | 1 => (u 0, 1)
  | 2 => ((u 0 &&& 0x1f) <<< 6 ||| (u 1 &&& 0x3f), 2)
  | 3 => ((u 0 &&& 0x0f) <<< 12 ||| (u 1 &&& 0x3f) <<< 6 ||| (u 2 &&& 0x3f), 3)
  | 4 => ((u 0 &&& 0x07) <<< 18 ||| (u 1 &&& 0x3f) <<< 12 ||| (u 2 &&& 0x3f) <<< 6 |||
      (u 3 &&& 0x3f), 4)
  | _ => (0, 0)

def IsHankaku (c : Nat) : Prop := c ≤ 0x7f

instance (c : Nat) : Decidable (IsHankaku c) := inferInstanceAs (Decidable (c ≤ 0x7f))

/-- The loop of `WriteString`: the columns and characters of the first `turns` turns. A byte that
begins no character has the size 0, and the loop stays at it for ever. -/
def textCells (s : Nat → UInt8) : (turns i : Nat) → (x : Int) → List (Int × Nat)
  | 0, _, _ => []
  | turns + 1, i, x =>
    if s i = 0 then []
    else
      let (u32, bytes) := ConvertUTF8To32 fun k => s (i + k)
      (x, u32) :: textCells s turns (i + bytes) (wrap32 (x + if IsHankaku u32 then 1 else 2))

/-- `WriteString`, up to a number of turns. -/
def WriteString (font : Font) (pos : Vector2D) (s : Nat → UInt8) (turns : Nat) : List Vector2D :=
  (textCells s turns 0 0).flatMap fun cell =>
    WriteUnicode font (pos + ⟨wrap32 (8 * cell.1), 0⟩) cell.2

end MikanOS
