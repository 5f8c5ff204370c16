import MikanOS.Graphics.LayerStack
import MikanOS.Graphics.WindowBuffers
import MikanOS.Library.Painting

/-! # What is drawn of a layer

`DrawTo` and `Copy` at each pixel of the screen, for windows at any place, and the loops of `Draw` against the
topmost layer. -/

namespace MikanOS

/-! ## Rectangles of `int`s -/

/-- The coordinates of the type `int`. -/
structure Vector2D.IsInt (v : Vector2D) : Prop where
  x : -2 ^ 31 ≤ v.x ∧ v.x < 2 ^ 31
  y : -2 ^ 31 ≤ v.y ∧ v.y < 2 ^ 31

/-- A rectangle of the type `Rectangle<int>` whose size is not negative. Its end may be out of range. -/
structure Rectangle.IsInt (r : Rectangle) : Prop where
  pos : r.pos.IsInt
  width : 0 ≤ r.size.x ∧ r.size.x < 2 ^ 31
  height : 0 ≤ r.size.y ∧ r.size.y < 2 ^ 31

section

variable {a b r : Rectangle} {p v w : Vector2D} {dst src : FrameBuffer}

theorem wrap32_isInt (v : Int) : -2 ^ 31 ≤ wrap32 v ∧ wrap32 v < 2 ^ 31 := by
  simp only [wrap32]
  omega

theorem Vector2D.isInt_add (v w : Vector2D) : (v + w).IsInt := ⟨wrap32_isInt _, wrap32_isInt _⟩

theorem Vector2D.isInt_zero : Vector2D.IsInt ⟨0, 0⟩ := ⟨by decide, by decide⟩

theorem Rectangle.InInt.isInt (h : r.InInt) : r.IsInt := by
  obtain ⟨hl, ht, hw, hh, hr, hb⟩ := h
  exact ⟨⟨⟨hl, by omega⟩, ht, by omega⟩, hw, hh⟩

theorem Rectangle.isInt_pos_inter (ha : a.pos.IsInt) (hb : b.pos.IsInt) : (a.inter b).pos.IsInt := by
  obtain ⟨⟨hax, hax'⟩, hay, hay'⟩ := ha
  obtain ⟨⟨hbx, hbx'⟩, hby, hby'⟩ := hb
  simp only [Rectangle.inter]
  split
  · exact Vector2D.isInt_zero
  · refine ⟨⟨?_, ?_⟩, ?_, ?_⟩
    all_goals dsimp only; omega

/-- A rectangle whose end is out of range has no common part with any other one. -/
theorem Rectangle.inter_of_not_inInt (ha : a.IsInt) (hb : b.IsInt) (h : ¬(a.InInt ∧ b.InInt)) :
    a.inter b = ⟨⟨0, 0⟩, ⟨0, 0⟩⟩ := by
  obtain ⟨⟨⟨hax, hax'⟩, hay, hay'⟩, ⟨haw, haw'⟩, hah, hah'⟩ := ha
  obtain ⟨⟨⟨hbx, hbx'⟩, hby, hby'⟩, ⟨hbw, hbw'⟩, hbh, hbh'⟩ := hb
  have hout : 2 ^ 31 ≤ a.pos.x + a.size.x ∨ 2 ^ 31 ≤ a.pos.y + a.size.y ∨ 2 ^ 31 ≤ b.pos.x + b.size.x ∨
      2 ^ 31 ≤ b.pos.y + b.size.y := by
    by_contra hin
    simp only [not_or, not_le] at hin
    obtain ⟨har, hab, hbr, hbb⟩ := hin
    exact h ⟨⟨hax, hay, ⟨haw, haw'⟩, ⟨hah, hah'⟩, har, hab⟩, hbx, hby, ⟨hbw, hbw'⟩, ⟨hbh, hbh'⟩, hbr, hbb⟩
  simp only [Rectangle.inter]
  refine if_pos ?_
  simp only [Vector2D.add_x, Vector2D.add_y, wrap32]
  omega

theorem Rectangle.isInt_inter (ha : a.IsInt) (hb : b.IsInt) : (a.inter b).IsInt := by
  by_cases h : a.InInt ∧ b.InInt
  · exact (h.1.inter h.2).1.isInt
  · rw [inter_of_not_inInt ha hb h]
    exact ⟨Vector2D.isInt_zero, by decide, by decide⟩

/-- The pixels of `operator&`. -/
theorem Rectangle.mem_inter (ha : a.IsInt) (hb : b.IsInt) :
    p ∈ a.inter b ↔ (a.InInt ∧ b.InInt) ∧ p ∈ a ∧ p ∈ b := by
  by_cases h : a.InInt ∧ b.InInt
  · rw [(h.1.inter h.2).2, and_iff_right h]
  · rw [inter_of_not_inInt ha hb h]
    refine iff_of_false ?_ fun h' => h h'.1
    simp only [Rectangle.mem_def]
    omega

/-- `Copy` from the same place of another buffer. -/
theorem FrameBuffer.copy_same (hpos : (dst.outline.inter r).pos.IsInt) :
    (dst.copy src r.pos r).pixel p = if p ∈ dst.outline.inter r then src.pixel p else dst.pixel p := by
  obtain ⟨⟨hx, hx'⟩, hy, hy'⟩ := hpos
  have hstart : (dst.outline.inter r).pos - (r.pos - r.pos) = (dst.outline.inter r).pos := by
    refine Vector2D.ext ?_ ?_
    · rw [Vector2D.sub_x, Vector2D.sub_x, sub_self, wrap32_of_range (v := 0) (by decide) (by decide), sub_zero,
        wrap32_of_range hx hx']
    · rw [Vector2D.sub_y, Vector2D.sub_y, sub_self, wrap32_of_range (v := 0) (by decide) (by decide), sub_zero,
        wrap32_of_range hy hy']
  simp only [FrameBuffer.copy]
  change (if p ∈ dst.outline.inter r then _ else _) = _
  refine if_congr Iff.rfl ?_ rfl
  change src.pixel ⟨((dst.outline.inter r).pos - (r.pos - r.pos)).x + (p.x - (dst.outline.inter r).pos.x),
    ((dst.outline.inter r).pos - (r.pos - r.pos)).y + (p.y - (dst.outline.inter r).pos.y)⟩ = _
  rw [hstart]
  congr 1
  refine Vector2D.ext ?_ ?_
  · dsimp only
    ring
  · dsimp only
    ring

end

/-! ## Pictures in the kernel heap -/

/-- The bytes of the `kHeapFrames` of `InitializeHeap`. -/
def kHeapBytes : Int := 64 * 512 * 4096

/-- `back_buffer_` is in the kernel heap, with four bytes for each pixel. -/
structure FrameBuffer.Held (screen : FrameBuffer) : Prop where
  width : 0 ≤ screen.horizontalResolution ∧ screen.horizontalResolution < 2 ^ 31
  height : 0 ≤ screen.verticalResolution ∧ screen.verticalResolution < 2 ^ 31
  bytes_le : 4 * (screen.horizontalResolution * screen.verticalResolution) ≤ kHeapBytes

theorem FrameBuffer.Held.isInt_outline {screen : FrameBuffer} (h : screen.Held) : screen.outline.IsInt :=
  ⟨Vector2D.isInt_zero, h.width, h.height⟩

/-- `data_` and the shadow buffer are in the kernel heap, with three and four bytes for each pixel. -/
def LayerWindow.Held (win : LayerWindow) : Prop := (3 + 4) * (win.width * win.height) ≤ kHeapBytes

namespace LayerWindow

/-- What a window at a position shows in a pixel of the screen: no colour where it is not or is transparent. -/
def picture (win : LayerWindow) (pos p : Vector2D) : Option PixelColor :=
  if p ∈ (⟨pos, win.size⟩ : Rectangle) then
    match win.transparentColor with
    | none => some (win.shadowBuffer ⟨p.x - pos.x, p.y - pos.y⟩)
    | some tc =>
      if win.data ⟨p.x - pos.x, p.y - pos.y⟩ ≠ tc then some (win.data ⟨p.x - pos.x, p.y - pos.y⟩) else none
  else none

variable {win : LayerWindow} {dst : FrameBuffer} {pos p : Vector2D} {area : Rectangle}

theorem picture_eq_none (h : p ∉ (⟨pos, win.size⟩ : Rectangle)) : win.picture pos p = none := if_neg h

theorem isSome_picture (h : p ∈ (⟨pos, win.size⟩ : Rectangle)) (hsolid : win.transparentColor = none) :
    (win.picture pos p).isSome := by
  rw [picture, if_pos h, hsolid]
  rfl

theorem isInt_rectangle (hpos : pos.IsInt) : (⟨pos, win.size⟩ : Rectangle).IsInt :=
  ⟨hpos, ⟨win.width_nonneg, win.width_lt⟩, win.height_nonneg, win.height_lt⟩

/-- A window with a pixel on the screen can be drawn without an overflow. -/
theorem Held.drawable (hwin : win.Held) (hscreen : dst.Held) (hp : p ∈ dst.outline)
    (hmem : p ∈ (⟨pos, win.size⟩ : Rectangle)) (harea : area.InInt) : win.Drawable dst pos area := by
  obtain ⟨⟨hw, hw'⟩, ⟨hh, hh'⟩, hbytes⟩ := hscreen
  obtain ⟨⟨hpx, hpx'⟩, hpy, hpy'⟩ : (0 ≤ p.x ∧ p.x < 0 + dst.horizontalResolution) ∧ 0 ≤ p.y ∧
    p.y < 0 + dst.verticalResolution := hp
  obtain ⟨⟨hx, hx'⟩, hy, hy'⟩ : (pos.x ≤ p.x ∧ p.x < pos.x + win.width) ∧ pos.y ≤ p.y ∧
    p.y < pos.y + win.height := hmem
  rw [LayerWindow.Held, kHeapBytes] at hwin
  rw [kHeapBytes] at hbytes
  -- neither side is zero, so that each is at most the number of pixels
  have hhr : dst.horizontalResolution ≤ dst.horizontalResolution * dst.verticalResolution :=
    le_mul_of_one_le_right (by omega) (by omega)
  have hvr : dst.verticalResolution ≤ dst.horizontalResolution * dst.verticalResolution :=
    le_mul_of_one_le_left (by omega) (by omega)
  have hwidth : win.width ≤ win.width * win.height := le_mul_of_one_le_right (by omega) (by omega)
  have hheight : win.height ≤ win.width * win.height := le_mul_of_one_le_left (by omega) (by omega)
  generalize dst.horizontalResolution * dst.verticalResolution = pixels at *
  generalize win.width * win.height = winPixels at *
  have hsize : win.size = ⟨win.width, win.height⟩ := rfl
  have houtline : dst.outline = ⟨⟨0, 0⟩, ⟨dst.horizontalResolution, dst.verticalResolution⟩⟩ := rfl
  refine ⟨?_, ?_, harea, by omega, by omega, by omega, by omega⟩
  · rw [houtline]
    constructor
    all_goals dsimp only; omega
  · rw [hsize]
    constructor
    all_goals dsimp only; omega

@[simp] theorem outline_drawTo (win : LayerWindow) (dst : FrameBuffer) (pos : Vector2D) (area : Rectangle) :
    (win.drawTo dst pos area).outline = dst.outline := by
  rw [drawTo]
  split <;> rfl

/-- An opaque window is drawn within the area, a transparent one everywhere. -/
theorem drawTo_pixel (hwin : win.Held) (hscreen : dst.Held) (hpos : pos.IsInt) (harea : area.IsInt)
    (hin : p ∈ area → area.InInt) (hp : p ∈ dst.outline) : (win.drawTo dst pos area).pixel p =
      if win.transparentColor = none ∧ p ∉ area then dst.pixel p else (win.picture pos p).getD (dst.pixel p) := by
  have hrect := @isInt_rectangle win pos hpos
  have houtline := hscreen.isInt_outline
  cases htc : win.transparentColor with
  | none =>
    by_cases hmem : p ∈ area ∧ p ∈ (⟨pos, win.size⟩ : Rectangle)
    · have hdraw := hwin.drawable hscreen hp hmem.2 (hin hmem.1)
      rw [drawTo_of_none hdraw htc hmem.1 hp, if_pos hmem.2, if_neg fun h => h.2 hmem.1, picture, if_pos hmem.2, htc]
      rfl
    · have hkept : (win.drawTo dst pos area).pixel p = dst.pixel p := by
        rw [drawTo, htc]
        refine if_neg fun hcopy => ?_
        have hcommon := ((Rectangle.mem_inter houtline (Rectangle.isInt_inter harea hrect)).mp hcopy).2.2
        exact hmem ((Rectangle.mem_inter harea hrect).mp hcommon).2
      rw [hkept]
      split
      · rfl
      · rename_i hnot
        have hnotMem : p ∉ (⟨pos, win.size⟩ : Rectangle) := fun h => hnot ⟨rfl, fun ha => hmem ⟨ha, h⟩⟩
        rw [picture_eq_none hnotMem]
        rfl
  | some tc =>
    rw [if_neg fun h => Option.some_ne_none tc h.1]
    by_cases hmem : p ∈ (⟨pos, win.size⟩ : Rectangle)
    · have hsame : win.drawTo dst pos area = win.drawTo dst pos ⟨⟨0, 0⟩, ⟨0, 0⟩⟩ := by
        rw [drawTo, drawTo, htc]
      have hdraw := @Held.drawable win dst pos p ⟨⟨0, 0⟩, ⟨0, 0⟩⟩ hwin hscreen hp hmem
        ⟨by decide, by decide, by decide, by decide, by decide, by decide⟩
      rw [hsame, drawTo_transparent hdraw htc hp, picture, if_pos hmem, htc]
      simp only [hmem, true_and]
      split <;> rfl
    · rw [picture_eq_none hmem, drawTo, htc]
      refine if_neg fun h => hmem ?_
      obtain ⟨⟨hx, hx'⟩, ⟨hy, hy'⟩, -⟩ := h
      have hwidth := hx'.trans_le (Int.min_le_left ..)
      have hheight := hy'.trans_le (Int.min_le_left ..)
      have hleft := (Int.le_max_left ..).trans hx
      have htop := (Int.le_max_left ..).trans hy
      rw [Rectangle.mem_def]
      change (pos.x ≤ p.x ∧ p.x < pos.x + win.width) ∧ pos.y ≤ p.y ∧ p.y < pos.y + win.height
      omega

end LayerWindow

/-! ## The loops of `Draw` -/

/-- What a layer shows in a pixel. -/
def Layer.picture (layer : Layer) (p : Vector2D) : Option PixelColor := layer.window.bind (·.picture layer.pos p)

namespace LayerManager

/-- What the layer at an address shows. -/
def picture (lm : LayerManager) (address : Nat) (p : Vector2D) : Option PixelColor :=
  (lm.deref address).bind (·.picture p)

/-- The colour of the topmost layer that is not transparent in a pixel. -/
def topmost (lm : LayerManager) (p : Vector2D) : Option PixelColor := Painting.topmost lm.picture lm.layerStack p

/-- The layer at an address has no transparent colour. -/
def Solid (lm : LayerManager) (address : Nat) : Prop :=
  ∀ layer ∈ lm.deref address, ∀ win ∈ layer.window, win.transparentColor = none

/-- The buffers are of one size, they and the windows are in the heap, and coordinates are `int`s. -/
structure Displayable (lm : LayerManager) : Prop where
  screen : lm.screen.Held
  size : lm.backBuffer.size = lm.screen.size
  uninitialized : lm.uninitialized.pos.IsInt
  pos : ∀ layer ∈ lm.layers, layer.pos.IsInt
  window : ∀ layer ∈ lm.layers, ∀ win ∈ layer.window, win.Held

/-- An area that is drawn: the part of it on the screen, if there is one, is that of a rectangle of `int`s. -/
structure Drawn (lm : LayerManager) (area : Rectangle) : Prop where
  isInt : area.IsInt
  inInt : ∀ p ∈ lm.screen.outline, p ∈ area → area.InInt

variable {lm : LayerManager} {area : Rectangle} {buffer : FrameBuffer} {stack : List Nat} {address : Nat}
  {p : Vector2D}

theorem outline_eq (h : buffer.size = lm.screen.size) : buffer.outline = lm.screen.outline := by
  rw [FrameBuffer.outline, FrameBuffer.outline, h]

theorem drawLayers_append (below above : List Nat) : lm.drawLayers area (below ++ above) buffer =
    lm.drawLayers area above (lm.drawLayers area below buffer) := List.foldl_append

theorem drawLayers_singleton (lm : LayerManager) (area : Rectangle) (address : Nat) (buffer : FrameBuffer) :
    lm.drawLayers area [address] buffer =
      match lm.deref address with
      | some layer => layer.drawTo buffer area
      | none => buffer := rfl

theorem size_drawLayers (stack : List Nat) (buffer : FrameBuffer) :
    (lm.drawLayers area stack buffer).size = buffer.size := by
  induction stack generalizing buffer with
  | nil => rfl
  | cons address stack ih =>
    rw [← List.singleton_append, drawLayers_append, ih, drawLayers_singleton]
    cases lm.deref address with
    | none => rfl
    | some layer =>
      dsimp only
      rw [Layer.drawTo]
      cases layer.window with
      | none => rfl
      | some win => exact congrArg Rectangle.size (win.outline_drawTo ..)

theorem Displayable.held (D : Displayable lm) (h : buffer.size = lm.screen.size) : buffer.Held := by
  have hwidth : buffer.horizontalResolution = lm.screen.horizontalResolution := congrArg Vector2D.x h
  have hheight : buffer.verticalResolution = lm.screen.verticalResolution := congrArg Vector2D.y h
  constructor
  · rw [hwidth]
    exact D.screen.width
  · rw [hheight]
    exact D.screen.height
  · rw [hwidth, hheight]
    exact D.screen.bytes_le

/-- Drawing one layer: within the area its picture is painted, and outside of it only that of a transparent
one. -/
theorem Displayable.drawOne_pixel (D : Displayable lm) (A : Drawn lm area) (hp : p ∈ lm.screen.outline)
    (hsize : buffer.size = lm.screen.size) :
    ((lm.drawLayers area [address] buffer).pixel p = (lm.picture address p).getD (buffer.pixel p) ∨
      p ∉ area ∧ (lm.drawLayers area [address] buffer).pixel p = buffer.pixel p) ∧
    (p ∉ area → lm.Solid address → (lm.drawLayers area [address] buffer).pixel p = buffer.pixel p) := by
  rw [drawLayers_singleton, picture]
  cases hlayer : lm.deref address with
  | none => exact ⟨.inl rfl, fun _ _ => rfl⟩
  | some layer =>
    have hmem := (deref_mem hlayer).1
    simp only [Option.bind_some, Layer.picture, Layer.drawTo]
    cases hwindow : layer.window with
    | none => exact ⟨.inl rfl, fun _ _ => rfl⟩
    | some win =>
      have hpixel := win.drawTo_pixel (D.window layer hmem win hwindow) (D.held hsize) (D.pos layer hmem) A.isInt
        (A.inInt p hp) (outline_eq hsize ▸ hp)
      simp only [Option.bind_some, hpixel]
      refine ⟨?_, fun harea S => if_pos ⟨S layer hlayer win hwindow, harea⟩⟩
      split
      · rename_i h
        exact .inr ⟨h.2, rfl⟩
      · exact .inl rfl

/-- Within the area the loop paints one layer over the other. -/
theorem Displayable.drawLayers_inside (D : Displayable lm) (A : Drawn lm area) (hp : p ∈ lm.screen.outline)
    (hsize : buffer.size = lm.screen.size) (harea : p ∈ area) (stack : List Nat) :
    (lm.drawLayers area stack buffer).pixel p =
      (Painting.topmost lm.picture stack p).getD (buffer.pixel p) := by
  rw [← Painting.foldl_getD]
  induction stack generalizing buffer with
  | nil => rfl
  | cons address stack ih =>
    have hone : (lm.drawLayers area [address] buffer).pixel p = (lm.picture address p).getD (buffer.pixel p) :=
      (D.drawOne_pixel A hp hsize).1.resolve_right fun h => h.1 harea
    rw [← List.singleton_append, drawLayers_append, ih ((size_drawLayers _ _).trans hsize), hone]
    rfl

/-- Outside of the area it leaves everything as it was but for transparent layers. -/
theorem Displayable.drawLayers_outside (D : Displayable lm) (A : Drawn lm area) (hp : p ∈ lm.screen.outline)
    (hsize : buffer.size = lm.screen.size) (harea : p ∉ area) (hsolid : ∀ address ∈ stack, lm.Solid address) :
    (lm.drawLayers area stack buffer).pixel p = buffer.pixel p := by
  induction stack generalizing buffer with
  | nil => rfl
  | cons address stack ih =>
    rw [← List.singleton_append, drawLayers_append, ih ((size_drawLayers _ _).trans hsize)
      fun a ha => hsolid a (List.mem_cons_of_mem _ ha)]
    exact (D.drawOne_pixel A hp hsize).2 harea (hsolid address List.mem_cons_self)

end LayerManager

end MikanOS
