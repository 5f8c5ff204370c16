import MikanOS.Graphics.WindowCalls

/-! # Frame buffers

`FrameBuffer::Copy` and `Window::DrawTo`. All buffers are of the screen's pixel format, so the check for
it is left out. A row of a buffer is contiguous, so the copying is given pixel by pixel. -/

namespace MikanOS

/-- `Rectangle<int>`. -/
structure Rectangle where
  pos : Vector2D
  size : Vector2D
  deriving DecidableEq

/-- `operator&`. -/
def Rectangle.inter (lhs rhs : Rectangle) : Rectangle :=
  let lhsEnd := lhs.pos + lhs.size
  let rhsEnd := rhs.pos + rhs.size
  if lhsEnd.x < rhs.pos.x ∨ lhsEnd.y < rhs.pos.y ∨ rhsEnd.x < lhs.pos.x ∨ rhsEnd.y < lhs.pos.y then
    ⟨⟨0, 0⟩, ⟨0, 0⟩⟩
  else
    let newPos : Vector2D := ⟨max lhs.pos.x rhs.pos.x, max lhs.pos.y rhs.pos.y⟩
    ⟨newPos, (⟨min lhsEnd.x rhsEnd.x, min lhsEnd.y rhsEnd.y⟩ : Vector2D) - newPos⟩

/-- The pixels of a rectangle. -/
instance : Membership Vector2D Rectangle where
  mem r p := (r.pos.x ≤ p.x ∧ p.x < r.pos.x + r.size.x) ∧ r.pos.y ≤ p.y ∧ p.y < r.pos.y + r.size.y

theorem Rectangle.mem_def {r : Rectangle} {p : Vector2D} : p ∈ r ↔
    (r.pos.x ≤ p.x ∧ p.x < r.pos.x + r.size.x) ∧ r.pos.y ≤ p.y ∧ p.y < r.pos.y + r.size.y := Iff.rfl

instance (r : Rectangle) (p : Vector2D) : Decidable (p ∈ r) :=
  decidable_of_iff _ Rectangle.mem_def.symm

structure PixelColor where
  r : UInt8
  g : UInt8
  b : UInt8
  deriving DecidableEq

structure FrameBuffer where
  horizontalResolution : Int
  verticalResolution : Int
  pixel : Vector2D → PixelColor

namespace FrameBuffer

variable (dst src : FrameBuffer)

/-- `FrameBufferSize`. -/
def size : Vector2D := ⟨dst.horizontalResolution, dst.verticalResolution⟩

/-- The rectangle of the whole buffer. -/
def outline : Rectangle := ⟨⟨0, 0⟩, dst.size⟩

/-- `Copy`. -/
def copy (dstPos : Vector2D) (srcArea : Rectangle) : FrameBuffer :=
  let srcAreaShifted : Rectangle := ⟨dstPos, srcArea.size⟩
  let copyArea := dst.outline.inter srcAreaShifted
  let srcStartPos := copyArea.pos - (dstPos - srcArea.pos)
  { dst with
    pixel := fun p =>
      if p ∈ copyArea then
        src.pixel ⟨srcStartPos.x + (p.x - copyArea.pos.x), srcStartPos.y + (p.y - copyArea.pos.y)⟩
      else dst.pixel p }

end FrameBuffer

/-- A `Window` or a `ToplevelWindow`, with what its methods `Activate` and `Deactivate` write to it: the
title of a `ToplevelWindow`. `Write` sets the pixels of `data_` and of the shadow buffer alike. -/
structure LayerWindow extends Window where
  toplevel : Bool
  transparentColor : Option PixelColor
  data : Vector2D → PixelColor
  shadowBuffer : Vector2D → PixelColor
  titlePixels : Bool → List (Vector2D × PixelColor)

namespace LayerWindow

variable (win : LayerWindow)

/-- `Size`. -/
def size : Vector2D := ⟨win.width, win.height⟩

/-- `Write`. -/
def write (pos : Vector2D) (c : PixelColor) : LayerWindow :=
  { win with
    data := Function.update win.data pos c
    shadowBuffer := Function.update win.shadowBuffer pos c }

/-- `Activate` and `Deactivate`. -/
def setActive (active : Bool) : LayerWindow :=
  (win.titlePixels active).foldl (fun win px => win.write px.1 px.2) win

/-- `DrawTo`. -/
def drawTo (dst : FrameBuffer) (pos : Vector2D) (area : Rectangle) : FrameBuffer :=
  match win.transparentColor with
  | none =>
    let windowArea : Rectangle := ⟨pos, win.size⟩
    let intersection := area.inter windowArea
    dst.copy ⟨dst.horizontalResolution, dst.verticalResolution, win.shadowBuffer⟩ intersection.pos
      ⟨intersection.pos - pos, intersection.size⟩
  | some tc =>
    { dst with
      pixel := fun p =>
        let x := p.x - pos.x
        let y := p.y - pos.y
        if (max 0 (wrap32 (0 - pos.x)) ≤ x ∧
              x < min win.width (wrap32 (dst.horizontalResolution - pos.x))) ∧
            (max 0 (wrap32 (0 - pos.y)) ≤ y ∧
              y < min win.height (wrap32 (dst.verticalResolution - pos.y))) ∧
            win.data ⟨x, y⟩ ≠ tc then
          win.data ⟨x, y⟩
        else dst.pixel p }

inductive Region where
  | kTitleBar | kCloseButton | kBorder | kOther
  deriving DecidableEq

/-- `GetWindowRegion`, with the margin of 24 above the inner part. -/
def getWindowRegion (pos : Vector2D) : Region :=
  if win.toplevel then
    if pos.x < 2 ∨ win.width - 2 ≤ pos.x ∨ pos.y < 2 ∨ win.height - 2 ≤ pos.y then .kBorder
    else if pos.y < 24 then
      if win.width - 5 - 16 ≤ pos.x ∧ pos.x < win.width - 5 ∧ 5 ≤ pos.y ∧ pos.y < 5 + 14 then
        .kCloseButton
      else .kTitleBar
    else .kOther
  else .kOther

@[simp] theorem write_toWindow (pos : Vector2D) (c : PixelColor) :
    (win.write pos c).toWindow = win.toWindow := rfl
@[simp] theorem write_transparentColor (pos : Vector2D) (c : PixelColor) :
    (win.write pos c).transparentColor = win.transparentColor := rfl

/-- The title is all that changes. -/
theorem setActive_toWindow (active : Bool) : (win.setActive active).toWindow = win.toWindow ∧
    (win.setActive active).transparentColor = win.transparentColor := by
  rw [setActive]
  induction win.titlePixels active generalizing win with
  | nil => exact ⟨rfl, rfl⟩
  | cons px pixels ih => exact ih (win.write px.1 px.2)

@[simp] theorem setActive_size (active : Bool) : (win.setActive active).size = win.size := by
  rw [size, size, (win.setActive_toWindow active).1]

end LayerWindow

end MikanOS
