import MikanOS.Graphics.FrameBuffer
import MikanOS.Library.RowCopy

/-! # Moving a part of a frame buffer

`FrameBuffer::Move` of `frame_buffer.cpp` on the bytes of the buffer. Pointers are offsets from the first of
them. -/

namespace MikanOS

open RowCopy

inductive PixelFormat where
  | kPixelRGBResv8BitPerColor | kPixelBGRResv8BitPerColor
  deriving DecidableEq

/-- `BytesPerPixel`. -/
def bytesPerPixel : PixelFormat → Nat
  | .kPixelRGBResv8BitPerColor => 4
  | .kPixelBGRResv8BitPerColor => 4

theorem bytesPerPixel_eq (format : PixelFormat) : bytesPerPixel format = 4 := by
  cases format <;> rfl

/-- `FrameBufferConfig`. A line has room for its pixels, and the number of all bytes is one of the
`unsigned int`s that `FrameAddrAt` computes with. -/
structure FrameBufferConfig where
  pixelFormat : PixelFormat
  pixelsPerScanLine : Nat
  horizontalResolution : Nat
  verticalResolution : Nat
  pitch : horizontalResolution ≤ pixelsPerScanLine
  fits : 4 * (pixelsPerScanLine * verticalResolution) < 2 ^ 32

namespace FrameBufferConfig

variable (config : FrameBufferConfig)

/-- `FrameAddrAt`, which computes with `unsigned int`s. -/
def frameAddrAt (pos : Vector2D) : Int :=
  bytesPerPixel config.pixelFormat * (config.pixelsPerScanLine * pos.y + pos.x) % 2 ^ 32

/-- `BytesPerScanLine`. -/
def bytesPerScanLine : Int := wrap32 (bytesPerPixel config.pixelFormat * config.pixelsPerScanLine)

/-- The number of bytes of a row, as the `size_t` that `memcpy` takes. -/
def rowBytes (width : Int) : Nat := (wrap32 (bytesPerPixel config.pixelFormat * width) % 2 ^ 64).toNat

/-- `Move`. -/
def move (m : Int → UInt8) (dstPos : Vector2D) (src : Rectangle) : Option (Int → UInt8) :=
  let n := config.rowBytes src.size.x
  if dstPos.y < src.pos.y then
    copyRows m (config.frameAddrAt dstPos) (config.frameAddrAt src.pos) config.bytesPerScanLine n
      src.size.y.toNat
  else
    let last : Vector2D := ⟨0, wrap32 (src.size.y - 1)⟩
    copyRows m (config.frameAddrAt (dstPos + last)) (config.frameAddrAt (src.pos + last))
      (-config.bytesPerScanLine) n src.size.y.toNat

/-- The bytes of a pixel. -/
def pixel (m : Int → UInt8) (pos : Vector2D) (k : Fin 4) : UInt8 := m (config.frameAddrAt pos + k)

/-- A pixel of the buffer. -/
def Contains (pos : Vector2D) : Prop :=
  (0 ≤ pos.x ∧ pos.x < config.horizontalResolution) ∧ 0 ≤ pos.y ∧ pos.y < config.verticalResolution

/-- A rectangle inside of the buffer. -/
structure Inside (r : Rectangle) : Prop where
  x_nonneg : 0 ≤ r.pos.x
  y_nonneg : 0 ≤ r.pos.y
  width_nonneg : 0 ≤ r.size.x
  height_nonneg : 0 ≤ r.size.y
  right : r.pos.x + r.size.x ≤ config.horizontalResolution
  bottom : r.pos.y + r.size.y ≤ config.verticalResolution

variable {config} {m m' : Int → UInt8} {dstPos pos : Vector2D} {src r : Rectangle} {x x' y y' w : Int}

/-! ## Lines -/

/-- The offset of a pixel, computed without a wrap. -/
def offset (config : FrameBufferConfig) (x y : Int) : Int := 4 * (config.pixelsPerScanLine * y + x)

/-- Lines follow each other: what is in one lies in front of what is in a later one. -/
theorem offset_add_le (hright : x + w ≤ config.horizontalResolution) (hx' : 0 ≤ x') (hlt : y < y') :
    config.offset x y + 4 * w ≤ config.offset x' y' := by
  have hpitch : (config.horizontalResolution : Int) ≤ config.pixelsPerScanLine := by
    exact_mod_cast config.pitch
  have hline : (config.pixelsPerScanLine : Int) * (y + 1) ≤ config.pixelsPerScanLine * y' :=
    mul_le_mul_of_nonneg_left hlt (Int.natCast_nonneg _)
  rw [mul_add, mul_one] at hline
  rw [offset, offset]
  omega

theorem frameAddrAt_eq (h : config.Contains pos) : config.frameAddrAt pos = config.offset pos.x pos.y := by
  obtain ⟨⟨hx, hright⟩, hy, hbottom⟩ := h
  have hend := @offset_add_le config pos.x 0 (pos.y) config.verticalResolution 1 hright le_rfl hbottom
  have hfits : ((4 * (config.pixelsPerScanLine * config.verticalResolution) : Nat) : Int) < 2 ^ 32 := by
    exact_mod_cast config.fits
  have hnonneg : (0 : Int) ≤ config.pixelsPerScanLine * pos.y := mul_nonneg (Int.natCast_nonneg _) hy
  rw [frameAddrAt, bytesPerPixel_eq, offset]
  rw [offset, offset] at hend
  push_cast at hfits ⊢
  rw [Int.emod_eq_of_lt (by omega) (by omega)]

theorem offset_add_mul (x y i : Int) :
    config.offset x y + i * (4 * config.pixelsPerScanLine) = config.offset x (y + i) := by
  rw [offset, offset]
  ring

theorem apart_of_ne {n : Nat} (hx : 0 ≤ x) (hx' : 0 ≤ x') (hright : x + w ≤ config.horizontalResolution)
    (hright' : x' + w ≤ config.horizontalResolution) (hn : (n : Int) = 4 * w) (hne : y ≠ y') :
    Apart n (config.offset x y) (config.offset x' y') := by
  rw [Apart, hn]
  rcases lt_or_gt_of_ne hne with hlt | hgt
  · exact .inl (offset_add_le hright hx' hlt)
  · exact .inr (offset_add_le hright' hx hgt)

theorem apart_of_column {n : Nat} (hn : (n : Int) = 4 * w) (h : x + w ≤ x' ∨ x' + w ≤ x) :
    Apart n (config.offset x y) (config.offset x' y) := by
  rw [Apart, hn, offset, offset]
  omega

/-- The lines of a rectangle, in the order in which `Move` copies them. -/
structure Order (height : Int) (rows : Nat) (line : Nat → Int) : Prop where
  nonneg : ∀ i < rows, 0 ≤ line i
  lt : ∀ i < rows, line i < height
  ne : ∀ i j, i < j → line i ≠ line j
  all : ∀ l, 0 ≤ l → l < height → ∃ i < rows, line i = l

/-- No row of the source overlaps the place that it is copied to. -/
def RowsApart (dstPos : Vector2D) (src : Rectangle) : Prop :=
  dstPos.y ≠ src.pos.y ∨ dstPos.x + src.size.x ≤ src.pos.x ∨ src.pos.x + src.size.x ≤ dstPos.x

instance (dstPos : Vector2D) (src : Rectangle) : Decidable (RowsApart dstPos src) :=
  inferInstanceAs (Decidable (_ ∨ _))

/-- What a move makes of the picture. -/
def Moved (config : FrameBufferConfig) (m m' : Int → UInt8) (dstPos : Vector2D) (src : Rectangle) : Prop :=
  ∀ p, config.Contains p → config.pixel m' p =
    if p ∈ (⟨dstPos, src.size⟩ : Rectangle) then
      config.pixel m ⟨src.pos.x + (p.x - dstPos.x), src.pos.y + (p.y - dstPos.y)⟩
    else config.pixel m p

/-- Lines copied in an order in which none is overwritten before it is read. -/
theorem copyRows_moved {d s step : Int} {n rows : Nat} {line : Nat → Int}
    (hsrc : config.Inside src) (hdst : config.Inside ⟨dstPos, src.size⟩)
    (horder : Order src.size.y rows line) (hn : (n : Int) = 4 * src.size.x)
    (hd : ∀ i < rows, d + i * step = config.offset dstPos.x (dstPos.y + line i))
    (hs : ∀ i < rows, s + i * step = config.offset src.pos.x (src.pos.y + line i))
    (happart : RowsApart dstPos src)
    (hread : ∀ i j, i ≤ j → dstPos.y + line i = src.pos.y + line j → i = j) :
    ∃ m', copyRows m d s step n rows = some m' ∧ config.Moved m m' dstPos src := by
  obtain ⟨m', hcopy, hcopied, hkept⟩ := @copyRows_spec _ m d s step n rows
    (fun i j hij hj => by
      rw [hd i (hij.trans_lt hj), hs j hj]
      by_cases hsame : dstPos.y + line i = src.pos.y + line j
      · -- the same line, so that its row is read at the time when it is written
        obtain rfl := hread i j hij hsame
        rw [hsame]
        exact apart_of_column hn (happart.resolve_left fun hne => hne (add_right_cancel hsame))
      · exact apart_of_ne hdst.x_nonneg hsrc.x_nonneg hdst.right hsrc.right hn hsame)
    (fun i j hij hj => by
      rw [hd i (hij.trans hj), hd j hj]
      exact apart_of_ne hdst.x_nonneg hdst.x_nonneg hdst.right hdst.right hn
        (fun h => horder.ne i j hij (Int.add_left_cancel h)))
  refine ⟨m', hcopy, fun p hp => ?_⟩
  funext k
  have hk : (k : Int) < 4 := by exact_mod_cast k.isLt
  rw [pixel, frameAddrAt_eq hp]
  split
  · next hmem =>
    obtain ⟨⟨hleft, hright⟩, htop, hbottom⟩ : (dstPos.x ≤ p.x ∧ p.x < dstPos.x + src.size.x) ∧
      dstPos.y ≤ p.y ∧ p.y < dstPos.y + src.size.y := hmem
    obtain ⟨i, hi, hline⟩ := horder.all (p.y - dstPos.y) (by omega) (by omega)
    have hcontains : config.Contains ⟨src.pos.x + (p.x - dstPos.x), src.pos.y + (p.y - dstPos.y)⟩ := by
      have := hsrc.x_nonneg
      have := hsrc.y_nonneg
      have := hsrc.right
      have := hsrc.bottom
      refine ⟨⟨?_, ?_⟩, ?_, ?_⟩ <;> dsimp only <;> omega
    have hcolumn := hcopied i hi (4 * (p.x - dstPos.x) + k).toNat (by omega)
    rw [hd i hi, hs i hi, hline, Int.toNat_of_nonneg (by omega)] at hcolumn
    rw [pixel, frameAddrAt_eq hcontains]
    convert hcolumn using 2
    · rw [offset, offset]
      ring
    · rw [offset, offset]
      ring
  · next hmem =>
    rw [pixel, frameAddrAt_eq hp]
    refine hkept _ fun i hi hrow => hmem ?_
    rw [hd i hi] at hrow
    have htop := horder.nonneg i hi
    have hbottom := horder.lt i hi
    obtain ⟨⟨hx, hxlt⟩, -⟩ := hp
    rcases lt_trichotomy p.y (dstPos.y + line i) with hlt | heq | hgt
    · have hend := @offset_add_le config p.x dstPos.x p.y (dstPos.y + line i) 1 hxlt hdst.x_nonneg hlt
      omega
    · -- in a line of the destination, so between its ends
      rw [heq, offset, offset] at hrow
      refine ⟨⟨?_, ?_⟩, ?_, ?_⟩ <;> dsimp only <;> omega
    · have hend := @offset_add_le config dstPos.x p.x (dstPos.y + line i) p.y src.size.x hdst.right hx hgt
      omega

/-- Nothing is copied, and nothing is to be moved. -/
theorem moved_of_empty (h : src.size.x = 0 ∨ src.size.y = 0) : config.Moved m m dstPos src := by
  intro p _
  rw [if_neg]
  rintro ⟨⟨hleft, hright⟩, htop, hbottom⟩
  dsimp only at hleft hright htop hbottom
  omega

/-! ## `Move` -/

/-- None of the sums of a move is out of range. -/
structure Sizes (config : FrameBufferConfig) (size : Vector2D) : Prop where
  lines : (config.verticalResolution : Int) < 2 ^ 30
  columns : (config.horizontalResolution : Int) < 2 ^ 30
  step : 1 < size.y → 4 * (config.pixelsPerScanLine : Int) < 2 ^ 31

theorem Inside.sizes (h : config.Inside r) (hx : 0 < r.size.x) (hy : 0 < r.size.y) :
    config.Sizes r.size := by
  have hpitch := config.pitch
  have hfits := config.fits
  obtain ⟨hxpos, hypos, -, -, hright, hbottom⟩ := h
  have hlines : config.pixelsPerScanLine * r.size.y.toNat ≤
      config.pixelsPerScanLine * config.verticalResolution := Nat.mul_le_mul_left _ (by omega)
  have hone : config.pixelsPerScanLine * 1 ≤ config.pixelsPerScanLine * r.size.y.toNat :=
    Nat.mul_le_mul_left _ (by omega)
  have hcolumns : 1 * config.verticalResolution ≤ config.pixelsPerScanLine * config.verticalResolution :=
    Nat.mul_le_mul_right _ (by omega)
  refine ⟨by omega, by omega, fun hrows => ?_⟩
  have htwo : config.pixelsPerScanLine * 2 ≤ config.pixelsPerScanLine * r.size.y.toNat :=
    Nat.mul_le_mul_left _ (by omega)
  omega

/-- Two places for a row are there only in a buffer of less than half as many bytes for each line. -/
theorem RowsApart.bytes (h : RowsApart dstPos src) (hsrc : config.Inside src)
    (hdst : config.Inside ⟨dstPos, src.size⟩) (hy : 0 < src.size.y) : 4 * src.size.x < 2 ^ 31 := by
  have hpitch := config.pitch
  have hfits := config.fits
  obtain ⟨hsx, hsy, -, -, hsright, hsbottom⟩ := hsrc
  obtain ⟨hdx, hdy, -, -, hdright, hdbottom⟩ := hdst
  dsimp only at hdx hdy hdright hdbottom
  rcases h with hne | hcolumns
  · have htwo : config.pixelsPerScanLine * 2 ≤ config.pixelsPerScanLine * config.verticalResolution :=
      Nat.mul_le_mul_left _ (by omega)
    omega
  · have hone : config.pixelsPerScanLine * 1 ≤ config.pixelsPerScanLine * config.verticalResolution :=
      Nat.mul_le_mul_left _ (by omega)
    omega

/-- The step is not taken in a rectangle of one line. -/
theorem Sizes.mul_bytesPerScanLine (h : config.Sizes src.size) {i : Nat} (hi : i < src.size.y.toNat) :
    (i : Int) * config.bytesPerScanLine = i * (4 * config.pixelsPerScanLine) := by
  rcases Nat.eq_zero_or_pos i with rfl | hpos
  · rw [Nat.cast_zero, zero_mul, zero_mul]
  · have hstep := h.step (by omega)
    rw [bytesPerScanLine, bytesPerPixel_eq, wrap32_of_range (by push_cast; omega) (by push_cast; omega)]
    rfl

theorem rowBytes_eq (config : FrameBufferConfig) (hw : 0 ≤ w) (hbytes : 4 * w < 2 ^ 31) :
    (config.rowBytes w : Int) = 4 * w := by
  have hwrap : wrap32 (4 * w) = 4 * w := wrap32_of_range (by omega) hbytes
  rw [rowBytes, bytesPerPixel_eq, Nat.cast_ofNat, hwrap, Int.toNat_of_nonneg (Int.emod_nonneg _ (by norm_num)),
    Int.emod_eq_of_lt (by omega) (by omega)]

/-- A row that is too long for an `int` is not copied as a shorter one. -/
theorem le_rowBytes (config : FrameBufferConfig) (hw : 0 ≤ w) (hbytes : 4 * w < 2 ^ 32) :
    4 * w ≤ config.rowBytes w := by
  rcases lt_or_ge (4 * w) (2 ^ 31) with hlt | hge
  · exact (rowBytes_eq config hw hlt).ge
  · have hwrap : wrap32 (4 * w) = 4 * w - 2 ^ 32 := by
      rw [wrap32]
      omega
    rw [rowBytes, bytesPerPixel_eq, Nat.cast_ofNat, hwrap,
      Int.toNat_of_nonneg (Int.emod_nonneg _ (by norm_num))]
    omega

theorem Order.up (height : Int) : Order height height.toNat fun i => i where
  nonneg i _ := Int.natCast_nonneg i
  lt i hi := by omega
  ne i j hij h := absurd (Int.ofNat_inj.mp h) hij.ne
  all l hl hlt := ⟨l.toNat, by omega, Int.toNat_of_nonneg hl⟩

theorem Order.down (height : Int) : Order height height.toNat fun i => height - 1 - i where
  nonneg i hi := by omega
  lt i hi := by omega
  ne i j hij h := by omega
  all l hl hlt := ⟨(height - 1 - l).toNat, by omega, by omega⟩

/-- A rectangle with pixels: its first one, and the first one of its last line. -/
theorem Inside.contains (h : config.Inside r) (hx : 0 < r.size.x) (hy : 0 < r.size.y) :
    config.Contains r.pos ∧ config.Contains ⟨r.pos.x, r.pos.y + (r.size.y - 1)⟩ := by
  obtain ⟨hxpos, hypos, -, -, hright, hbottom⟩ := h
  refine ⟨⟨⟨hxpos, by omega⟩, hypos, by omega⟩, ⟨hxpos, ?_⟩, ?_⟩
  · dsimp only
    omega
  · dsimp only
    omega

/-- The lines from the first one on. -/
theorem up_address (h : config.Inside r) (hsizes : config.Sizes r.size) (hx : 0 < r.size.x)
    (hy : 0 < r.size.y) {i : Nat} (hi : i < r.size.y.toNat) :
    config.frameAddrAt r.pos + i * config.bytesPerScanLine = config.offset r.pos.x (r.pos.y + i) := by
  rw [frameAddrAt_eq (h.contains hx hy).1, hsizes.mul_bytesPerScanLine hi, offset_add_mul]

/-- The lines from the last one on. -/
theorem down_address (h : config.Inside r) (hsizes : config.Sizes r.size) (hx : 0 < r.size.x)
    (hy : 0 < r.size.y) {i : Nat} (hi : i < r.size.y.toNat) :
    config.frameAddrAt (r.pos + ⟨0, wrap32 (r.size.y - 1)⟩) + i * -config.bytesPerScanLine =
      config.offset r.pos.x (r.pos.y + (r.size.y - 1 - i)) := by
  have hlast : r.pos + ⟨0, wrap32 (r.size.y - 1)⟩ = ⟨r.pos.x, r.pos.y + (r.size.y - 1)⟩ := by
    have hlines := hsizes.lines
    have hcolumns := hsizes.columns
    obtain ⟨hxpos, hypos, -, -, hright, hbottom⟩ := h
    have hheight : wrap32 (r.size.y - 1) = r.size.y - 1 := wrap32_of_range (by omega) (by omega)
    rw [hheight]
    apply Vector2D.ext
    · rw [Vector2D.add_x, add_zero, wrap32_of_range (by omega) (by omega)]
    · have hlast : wrap32 (r.pos.y + (r.size.y - 1)) = r.pos.y + (r.size.y - 1) :=
        wrap32_of_range (by omega) (by omega)
      exact hlast
  rw [hlast, frameAddrAt_eq (h.contains hx hy).2, mul_neg, hsizes.mul_bytesPerScanLine hi, ← neg_mul,
    offset_add_mul]
  congr 1
  ring

theorem move_of_rowsApart (m : Int → UInt8) (hsrc : config.Inside src)
    (hdst : config.Inside ⟨dstPos, src.size⟩) (h : src.size.y = 0 ∨ RowsApart dstPos src) :
    ∃ m', config.move m dstPos src = some m' ∧ config.Moved m m' dstPos src := by
  rcases hsrc.height_nonneg.lt_or_eq with hy | hy
  · have happart := h.resolve_left hy.ne'
    rcases hsrc.width_nonneg.lt_or_eq with hx | hx
    · have hsizes := hsrc.sizes hx hy
      have hn := rowBytes_eq config hx.le (happart.bytes hsrc hdst hy)
      rw [move]
      split
      · next hup =>
        exact copyRows_moved hsrc hdst (Order.up _) hn (fun i hi => up_address hdst hsizes hx hy hi)
          (fun i hi => up_address hsrc hsizes hx hy hi) happart fun i j hij h => by omega
      · next hdown =>
        exact copyRows_moved hsrc hdst (Order.down _) hn (fun i hi => down_address hdst hsizes hx hy hi)
          (fun i hi => down_address hsrc hsizes hx hy hi) happart fun i j hij h => by omega
    · have hn : config.rowBytes src.size.x = 0 := by
        have h := rowBytes_eq config hx.le (by omega)
        omega
      refine ⟨m, ?_, moved_of_empty (.inl hx.symm)⟩
      rw [move, hn]
      split
      · exact copyRows_empty ..
      · exact copyRows_empty ..
  · refine ⟨m, ?_, moved_of_empty (.inr hy.symm)⟩
    rw [move, ← hy]
    split
    · rfl
    · rfl

/-- Within a line, `memcpy` may not be called for places that overlap. -/
theorem move_eq_none (m : Int → UInt8) (hsrc : config.Inside src) (hdst : config.Inside ⟨dstPos, src.size⟩)
    (happart : ¬RowsApart dstPos src) (hy : 0 < src.size.y) : config.move m dstPos src = none := by
  rw [RowsApart, not_or, not_not, not_or] at happart
  obtain ⟨hline, hleft, hright⟩ := happart
  have hx : 0 < src.size.x := by omega
  have hsizes := hsrc.sizes hx hy
  have hn := le_rowBytes config hx.le (by
    have := hsizes.columns
    have := hsrc.x_nonneg
    have := hsrc.right
    omega)
  have hd := down_address hdst hsizes hx hy (Int.lt_toNat.mpr hy)
  have hs := down_address hsrc hsizes hx hy (Int.lt_toNat.mpr hy)
  rw [Nat.cast_zero, zero_mul, add_zero] at hd hs
  obtain ⟨rows, hrows⟩ := Nat.exists_eq_add_one_of_ne_zero (Int.lt_toNat.mpr hy).ne'
  rw [move, if_neg (by omega), hrows, copyRows, memcpy, hd, hs, if_neg, Option.bind_none]
  rw [Apart, offset, offset, hline]
  dsimp only
  omega

/-- `Move` between different lines of a buffer moves the picture of the source, and no pixel beside the
destination changes, however the two rectangles overlap. -/
theorem move_moved (m : Int → UInt8) (hsrc : config.Inside src) (hdst : config.Inside ⟨dstPos, src.size⟩)
    (hne : dstPos.y ≠ src.pos.y) :
    ∃ m', config.move m dstPos src = some m' ∧ config.Moved m m' dstPos src :=
  move_of_rowsApart m hsrc hdst (.inr (.inl hne))

/-- `Scroll1` on a buffer of three lines of four pixels, of which the last one is padding: the two lower lines
go up by one. -/
theorem move_moved_scroll :
    ∃ m', move ⟨.kPixelBGRResv8BitPerColor, 4, 3, 3, by decide, by decide⟩ (fun a => a.toNat.toUInt8)
        ⟨0, 0⟩ ⟨⟨0, 1⟩, ⟨3, 2⟩⟩ = some m' ∧
      Moved ⟨.kPixelBGRResv8BitPerColor, 4, 3, 3, by decide, by decide⟩ (fun a => a.toNat.toUInt8) m'
        ⟨0, 0⟩ ⟨⟨0, 1⟩, ⟨3, 2⟩⟩ :=
  move_moved _ ⟨by decide, by decide, by decide, by decide, by decide, by decide⟩
    ⟨by decide, by decide, by decide, by decide, by decide, by decide⟩ (by decide)

end FrameBufferConfig

end MikanOS
