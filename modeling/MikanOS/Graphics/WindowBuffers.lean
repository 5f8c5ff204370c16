import MikanOS.Graphics.FrameMove
import MikanOS.Library.History

/-! # The two pictures of a window

A `Window` keeps its picture in `data_`, which `At` and the drawing with a transparent colour read, and in the
shadow buffer, which the other drawing copies. `Write` stores into both of them, `Move` moves the shadow
buffer alone. -/

namespace MikanOS

/-! ## The two ways to draw a window -/

/-- The numbers of a rectangle, and its ends, are of the type `int`. -/
structure Rectangle.InInt (r : Rectangle) : Prop where
  left : -2 ^ 31 ≤ r.pos.x
  top : -2 ^ 31 ≤ r.pos.y
  width : 0 ≤ r.size.x ∧ r.size.x < 2 ^ 31
  height : 0 ≤ r.size.y ∧ r.size.y < 2 ^ 31
  right : r.pos.x + r.size.x < 2 ^ 31
  bottom : r.pos.y + r.size.y < 2 ^ 31

theorem Rectangle.pos_mem {r : Rectangle} {p : Vector2D} (h : p ∈ r) : r.pos ∈ r := by
  rw [Rectangle.mem_def] at h ⊢
  omega

/-- The pixels of `operator&`, and that its numbers are of the type `int` again. -/
theorem Rectangle.InInt.inter {a b : Rectangle} (ha : a.InInt) (hb : b.InInt) :
    (a.inter b).InInt ∧ ∀ p, p ∈ a.inter b ↔ p ∈ a ∧ p ∈ b := by
  obtain ⟨hax, hay, haw, hah, har, hab⟩ := ha
  obtain ⟨hbx, hby, hbw, hbh, hbr, hbb⟩ := hb
  have hends : a.pos + a.size = ⟨a.pos.x + a.size.x, a.pos.y + a.size.y⟩ ∧
      b.pos + b.size = ⟨b.pos.x + b.size.x, b.pos.y + b.size.y⟩ := by
    refine ⟨Vector2D.ext ?_ ?_, Vector2D.ext ?_ ?_⟩ <;> exact wrap32_of_range (by omega) (by omega)
  simp only [Rectangle.inter, hends.1, hends.2]
  split
  · next hapart =>
    refine ⟨⟨by decide, by decide, by decide, by decide, by decide, by decide⟩, fun p => ?_⟩
    simp only [Rectangle.mem_def]
    omega
  · next hmeet =>
    have hsize : (⟨min (a.pos.x + a.size.x) (b.pos.x + b.size.x),
          min (a.pos.y + a.size.y) (b.pos.y + b.size.y)⟩ : Vector2D) -
          ⟨max a.pos.x b.pos.x, max a.pos.y b.pos.y⟩ =
        ⟨min (a.pos.x + a.size.x) (b.pos.x + b.size.x) - max a.pos.x b.pos.x,
          min (a.pos.y + a.size.y) (b.pos.y + b.size.y) - max a.pos.y b.pos.y⟩ :=
      Vector2D.ext (wrap32_of_range (by dsimp only; omega) (by dsimp only; omega))
        (wrap32_of_range (by dsimp only; omega) (by dsimp only; omega))
    rw [hsize]
    refine ⟨⟨?_, ?_, ?_, ?_, ?_, ?_⟩, fun p => ?_⟩
    any_goals dsimp only
    any_goals omega
    simp only [Rectangle.mem_def]
    omega

namespace LayerWindow

variable {win : LayerWindow} {dst : FrameBuffer} {pos p : Vector2D} {area : Rectangle} {tc : PixelColor}

/-- Where a window is drawn: none of the sums of `DrawTo` and `Copy` is out of range. -/
structure Drawable (win : LayerWindow) (dst : FrameBuffer) (pos : Vector2D) (area : Rectangle) : Prop where
  screen : dst.outline.InInt
  window : (⟨pos, win.size⟩ : Rectangle).InInt
  area : area.InInt
  left : -2 ^ 31 < pos.x
  top : -2 ^ 31 < pos.y
  right : dst.horizontalResolution - pos.x < 2 ^ 31
  bottom : dst.verticalResolution - pos.y < 2 ^ 31

theorem drawTo_of_none (h : win.Drawable dst pos area) (hnone : win.transparentColor = none)
    (hp : p ∈ area) (hscreen : p ∈ dst.outline) : (win.drawTo dst pos area).pixel p =
      if p ∈ (⟨pos, win.size⟩ : Rectangle) then win.shadowBuffer ⟨p.x - pos.x, p.y - pos.y⟩
      else dst.pixel p := by
  obtain ⟨hvisible, hmem⟩ := h.area.inter h.window
  rw [drawTo, hnone]
  dsimp only
  generalize area.inter ⟨pos, win.size⟩ = visible at *
  obtain ⟨-, hcopied⟩ := h.screen.inter hvisible
  have hcopy : p ∈ dst.outline.inter visible ↔ p ∈ (⟨pos, win.size⟩ : Rectangle) :=
    (hcopied p).trans ((and_iff_right hscreen).trans ((hmem p).trans (and_iff_right hp)))
  rw [FrameBuffer.copy]
  change (if p ∈ dst.outline.inter visible then _ else _) = _
  refine ite_congr (propext hcopy) (fun hwindow => ?_) fun _ => rfl
  -- the start in the source is the start in the destination less `pos`
  have hstart : (dst.outline.inter visible).pos - (visible.pos - (visible.pos - pos)) =
      ⟨(dst.outline.inter visible).pos.x - pos.x, (dst.outline.inter visible).pos.y - pos.y⟩ := by
    have hcopyPos := ((hcopied _).mp (Rectangle.pos_mem (hcopy.mpr hwindow))).2
    obtain ⟨⟨hvx, hvxlt⟩, hvy, hvylt⟩ := ((hmem _).mp (Rectangle.pos_mem hcopyPos)).2
    obtain ⟨⟨hcx, hcxlt⟩, hcy, hcylt⟩ := ((hmem _).mp hcopyPos).2
    obtain ⟨hwx, hwy, hww, hwh, hwr, hwb⟩ := h.window
    dsimp only at hvx hvxlt hvy hvylt hcx hcxlt hcy hcylt hwx hwy hww hwh hwr hwb
    have hinner : visible.pos - pos = ⟨visible.pos.x - pos.x, visible.pos.y - pos.y⟩ :=
      Vector2D.ext (wrap32_of_range (by omega) (by omega)) (wrap32_of_range (by omega) (by omega))
    have hback : visible.pos - ⟨visible.pos.x - pos.x, visible.pos.y - pos.y⟩ = pos := by
      refine Vector2D.ext ?_ ?_
      · rw [Vector2D.sub_x, sub_sub_cancel, wrap32_of_range (by omega) (by omega)]
      · rw [Vector2D.sub_y, sub_sub_cancel, wrap32_of_range (by omega) (by omega)]
    rw [hinner, hback]
    exact Vector2D.ext (wrap32_of_range (by omega) (by omega)) (wrap32_of_range (by omega) (by omega))
  change win.shadowBuffer ⟨((dst.outline.inter visible).pos - (visible.pos - (visible.pos - pos))).x +
    (p.x - (dst.outline.inter visible).pos.x), ((dst.outline.inter visible).pos -
      (visible.pos - (visible.pos - pos))).y + (p.y - (dst.outline.inter visible).pos.y)⟩ = _
  rw [hstart]
  congr 2
  · ring
  · ring

theorem drawTo_transparent (h : win.Drawable dst pos area) (htc : win.transparentColor = some tc)
    (hscreen : p ∈ dst.outline) : (win.drawTo dst pos area).pixel p =
      if p ∈ (⟨pos, win.size⟩ : Rectangle) ∧ win.data ⟨p.x - pos.x, p.y - pos.y⟩ ≠ tc then
        win.data ⟨p.x - pos.x, p.y - pos.y⟩ else dst.pixel p := by
  rw [drawTo, htc]
  dsimp only
  refine if_congr ?_ rfl rfl
  rw [← and_assoc]
  refine and_congr_left fun _ => ?_
  obtain ⟨⟨hx, hxlt⟩, hy, hylt⟩ : (0 ≤ p.x ∧ p.x < 0 + dst.horizontalResolution) ∧ 0 ≤ p.y ∧
    p.y < 0 + dst.verticalResolution := hscreen
  obtain ⟨-, ⟨hwx, hwy, hww, hwh, hwr, hwb⟩, -, hleft, htop, hright, hbottom⟩ := h
  dsimp only at hwx hwy hww hwh hwr hwb
  rw [wrap32_of_range (by omega) (by omega), wrap32_of_range (by omega) (by omega),
    wrap32_of_range (by omega) (by omega), wrap32_of_range (by omega) (by omega)]
  change _ ↔ (pos.x ≤ p.x ∧ p.x < pos.x + win.width) ∧ pos.y ≤ p.y ∧ p.y < pos.y + win.height
  omega

/-- With the same pictures, a transparent colour that occurs nowhere makes no difference. -/
theorem drawTo_same {shown : LayerWindow} (h : win.Drawable dst pos area)
    (hnone : win.transparentColor = none) (hsize : shown.size = win.size)
    (htc : shown.transparentColor = some tc)
    (hagree : ∀ q, win.Contains q → shown.data q = win.shadowBuffer q ∧ shown.data q ≠ tc)
    (hp : p ∈ area) (hscreen : p ∈ dst.outline) :
    (win.drawTo dst pos area).pixel p = (shown.drawTo dst pos area).pixel p := by
  have hshown : shown.Drawable dst pos area := { h with window := hsize ▸ h.window }
  rw [drawTo_of_none h hnone hp hscreen, drawTo_transparent hshown htc hscreen, hsize]
  by_cases hwindow : p ∈ (⟨pos, win.size⟩ : Rectangle)
  · have hmem := hwindow
    obtain ⟨⟨hx, hxlt⟩, hy, hylt⟩ : (pos.x ≤ p.x ∧ p.x < pos.x + win.width) ∧ pos.y ≤ p.y ∧
      p.y < pos.y + win.height := hmem
    have hcontains : win.Contains ⟨p.x - pos.x, p.y - pos.y⟩ :=
      ⟨⟨Int.sub_nonneg_of_le hx, Int.sub_left_lt_of_lt_add hxlt⟩, Int.sub_nonneg_of_le hy,
        Int.sub_left_lt_of_lt_add hylt⟩
    obtain ⟨hsame, hne⟩ := hagree _ hcontains
    rw [if_pos hwindow, if_pos ⟨hwindow, hne⟩, hsame]
  · rw [if_neg hwindow, if_neg fun h => hwindow h.1]

end LayerWindow

open FrameBufferConfig

/-! ## Windows with their bytes -/

/-- The colour in the bytes of a pixel. -/
def colorOf (format : PixelFormat) (bytes : Fin 4 → UInt8) : PixelColor :=
  match format with
  | .kPixelRGBResv8BitPerColor => ⟨bytes 0, bytes 1, bytes 2⟩
  | .kPixelBGRResv8BitPerColor => ⟨bytes 2, bytes 1, bytes 0⟩

/-- `Write` of the writers for frame buffers, with the pixel at `p`. -/
def storeColor (format : PixelFormat) (m : Int → UInt8) (p : Int) (c : PixelColor) : Int → UInt8 :=
  match format with
  | .kPixelRGBResv8BitPerColor =>
    Function.update (Function.update (Function.update m p c.r) (p + 1) c.g) (p + 2) c.b
  | .kPixelBGRResv8BitPerColor =>
    Function.update (Function.update (Function.update m p c.b) (p + 1) c.g) (p + 2) c.r

/-- A `Window` with its two pictures. The lines of the shadow buffer are as long as those of the window. -/
structure BufferedWindow extends Window where
  shadowFormat : PixelFormat
  fits : 4 * (width.toNat * height.toNat) < 2 ^ 32
  data : Vector2D → PixelColor
  shadowBytes : Int → UInt8

inductive WindowCall where
  | write (pos : Vector2D) (c : PixelColor)
  | move (dstPos : Vector2D) (src : Rectangle)

namespace BufferedWindow

/-- A new window, all of whose bytes are zero. -/
def new (window : Window) (format : PixelFormat)
    (fits : 4 * (window.width.toNat * window.height.toNat) < 2 ^ 32) : BufferedWindow :=
  { window with
    shadowFormat := format
    fits := fits
    data := fun _ => ⟨0, 0, 0⟩
    shadowBytes := fun _ => 0 }

variable (win : BufferedWindow)

theorem config_pitch : win.width.toNat ≤ win.width.toNat := le_rfl

/-- The configuration that the constructor of `Window` gives to the shadow buffer. -/
def config : FrameBufferConfig :=
  ⟨win.shadowFormat, win.width.toNat, win.width.toNat, win.height.toNat, win.config_pitch, win.fits⟩

/-- A pixel of the shadow buffer. -/
def shadow (pos : Vector2D) : PixelColor := colorOf win.shadowFormat (win.config.pixel win.shadowBytes pos)

/-- `Write`. The writer of the shadow buffer finds a pixel as `FrameAddrAt` does. -/
def write (pos : Vector2D) (c : PixelColor) : BufferedWindow :=
  { win with
    data := Function.update win.data pos c
    shadowBytes := storeColor win.shadowFormat win.shadowBytes (win.config.frameAddrAt pos) c }

/-- `Move`. -/
def move (dstPos : Vector2D) (src : Rectangle) : Option BufferedWindow :=
  (win.config.move win.shadowBytes dstPos src).map fun bytes => { win with shadowBytes := bytes }

def call : WindowCall → Option BufferedWindow
  | .write pos c => some (win.write pos c)
  | .move dstPos src => win.move dstPos src

/-- A sequence of calls. `none`: a `memcpy` was called for places that overlap. -/
def run (calls : List WindowCall) : Option BufferedWindow := calls.foldlM call win

/-- The positions of a call are in the window. -/
def InRange : WindowCall → Prop
  | .write pos _ => win.config.Contains pos
  | .move dstPos src => win.config.Inside src ∧ win.config.Inside ⟨dstPos, src.size⟩

/-- The two pictures are the same. -/
def Agree : Prop := ∀ p, win.Contains p → win.data p = win.shadow p

/-- The window as `DrawTo` finds it. -/
def shown (transparentColor : Option PixelColor) : LayerWindow :=
  { win.toWindow with
    toplevel := false
    transparentColor := transparentColor
    data := win.data
    shadowBuffer := win.shadow
    titlePixels := fun _ => [] }

/-- In all of the area that is to be drawn, `DrawTo` shows the same whether or not a transparent colour is set
that occurs nowhere in the window. -/
def DrawsSame : Prop :=
  ∀ dst pos area tc p, (win.shown none).Drawable dst pos area →
    (∀ q, win.Contains q → win.data q ≠ tc) → p ∈ area → p ∈ dst.outline →
    ((win.shown none).drawTo dst pos area).pixel p = ((win.shown (some tc)).drawTo dst pos area).pixel p

/-- The calls that leave the pictures the same: a `Move` has nothing to change, since the shadow buffer shows
the same at the source and at the destination. -/
def Meets : WindowCall → Prop
  | .write _ _ => True
  | .move dstPos src => (src.size.y = 0 ∨ RowsApart dstPos src) ∧
      ∀ p ∈ (⟨dstPos, src.size⟩ : Rectangle),
        win.shadow p = win.shadow ⟨src.pos.x + (p.x - dstPos.x), src.pos.y + (p.y - dstPos.y)⟩

variable {win} {win' : BufferedWindow} {calls : List WindowCall} {pos p dstPos : Vector2D} {src : Rectangle}
  {c : PixelColor} {m : Int → UInt8}

theorem contains_iff : win.config.Contains p ↔ win.Contains p := by
  have hw := win.width_nonneg
  have hh := win.height_nonneg
  rw [FrameBufferConfig.Contains, Window.Contains, config, Int.toNat_of_nonneg hw, Int.toNat_of_nonneg hh]

/-- Equal pictures are drawn equally. -/
theorem Agree.drawsSame (h : win.Agree) : win.DrawsSame := by
  intro dst pos area tc p hdrawable htc hp hscreen
  exact LayerWindow.drawTo_same hdrawable rfl rfl rfl (fun q hq => ⟨h q hq, htc q hq⟩) hp hscreen

/-! ## One call -/

theorem colorOf_storeColor (config : FrameBufferConfig) (format : PixelFormat) (m : Int → UInt8)
    (pos : Vector2D) (c : PixelColor) :
    colorOf format (config.pixel (storeColor format m (config.frameAddrAt pos) c) pos) = c := by
  cases format <;> simp [colorOf, storeColor, pixel, Function.update]

/-- The bytes of two pixels have different places. -/
theorem offset_ne {config : FrameBufferConfig} (hpos : config.Contains pos) (hp : config.Contains p)
    (hne : p ≠ pos) {i j : Int} (hi : 0 ≤ i ∧ i < 4) (hj : 0 ≤ j ∧ j < 4) :
    config.frameAddrAt p + i ≠ config.frameAddrAt pos + j := by
  have hafter (q q' : Vector2D) (hq : config.Contains q) (hq' : config.Contains q') (hlt : q.y < q'.y) :
      config.offset q.x q.y + 4 * 1 ≤ config.offset q'.x q'.y := offset_add_le hq.1.2 hq'.1.1 hlt
  rw [frameAddrAt_eq hpos, frameAddrAt_eq hp]
  rcases lt_trichotomy p.y pos.y with hlt | heq | hgt
  · have := hafter p pos hp hpos hlt
    omega
  · have hx : p.x ≠ pos.x := fun hx => hne (Vector2D.ext hx heq)
    rw [heq, offset, offset]
    omega
  · have := hafter pos p hpos hp hgt
    omega

theorem pixel_storeColor_of_ne {config : FrameBufferConfig} (format : PixelFormat) (hpos : config.Contains pos)
    (hp : config.Contains p) (hne : p ≠ pos) :
    config.pixel (storeColor format m (config.frameAddrAt pos) c) p = config.pixel m p := by
  funext k
  have hk : 0 ≤ (k : Int) ∧ (k : Int) < 4 := ⟨Int.natCast_nonneg _, by exact_mod_cast k.isLt⟩
  have h0 := offset_ne hpos hp hne hk (j := 0) (by decide)
  have h1 := offset_ne hpos hp hne hk (j := 1) (by decide)
  have h2 := offset_ne hpos hp hne hk (j := 2) (by decide)
  rw [add_zero] at h0
  cases format with
  | kPixelRGBResv8BitPerColor =>
    rw [pixel, storeColor, Function.update_of_ne h2, Function.update_of_ne h1, Function.update_of_ne h0, pixel]
  | kPixelBGRResv8BitPerColor =>
    rw [pixel, storeColor, Function.update_of_ne h2, Function.update_of_ne h1, Function.update_of_ne h0, pixel]

theorem data_write : (win.write pos c).data p = if p = pos then c else win.data p :=
  Function.update_apply ..

theorem write_agree (h : win.Agree) (hpos : win.config.Contains pos) : (win.write pos c).Agree := by
  intro p hp
  change Function.update win.data pos c p = colorOf win.shadowFormat
    (win.config.pixel (storeColor win.shadowFormat win.shadowBytes (win.config.frameAddrAt pos) c) p)
  by_cases heq : p = pos
  · subst heq
    rw [Function.update_self, colorOf_storeColor]
  · have hcontains : win.config.Contains p := contains_iff.mpr hp
    rw [Function.update_of_ne heq, pixel_storeColor_of_ne _ hpos hcontains heq]
    exact h p hp

/-- What `Move` shows at a place of the shadow buffer. -/
theorem shadow_of_moved {bytes : Int → UInt8} (h : win.config.Moved win.shadowBytes bytes dstPos src)
    (hp : win.config.Contains p) :
    ({ win with shadowBytes := bytes } : BufferedWindow).shadow p =
      if p ∈ (⟨dstPos, src.size⟩ : Rectangle) then
        win.shadow ⟨src.pos.x + (p.x - dstPos.x), src.pos.y + (p.y - dstPos.y)⟩
      else win.shadow p := by
  rw [shadow, shadow, shadow, ← apply_ite (colorOf win.shadowFormat)]
  exact congrArg (colorOf win.shadowFormat) (h p hp)

theorem contains_of_mem {config : FrameBufferConfig} {r : Rectangle} (h : config.Inside r) (hp : p ∈ r) :
    config.Contains p := by
  obtain ⟨⟨hleft, hright⟩, htop, hbottom⟩ := hp
  obtain ⟨hx, hy, -, -, hxend, hyend⟩ := h
  exact ⟨⟨hx.trans hleft, hright.trans_le hxend⟩, hy.trans htop, hbottom.trans_le hyend⟩

theorem move_agree_iff (h : win.Agree) (hrange : win.InRange (.move dstPos src)) :
    (∃ win', win.move dstPos src = some win' ∧ win'.Agree) ↔ win.Meets (.move dstPos src) := by
  obtain ⟨hsrc, hdst⟩ := hrange
  by_cases hrows : src.size.y = 0 ∨ RowsApart dstPos src
  · obtain ⟨bytes, hmove, hmoved⟩ := move_of_rowsApart win.shadowBytes hsrc hdst hrows
    rw [move, hmove, Option.map_some]
    constructor
    · rintro ⟨win', hwin', hagree⟩
      obtain rfl := Option.some.inj hwin'
      refine ⟨hrows, fun p hp => ?_⟩
      have hcontains := contains_of_mem hdst hp
      have hshows := hagree p (contains_iff.mp hcontains)
      rw [shadow_of_moved hmoved hcontains, if_pos hp] at hshows
      exact (h p (contains_iff.mp hcontains)).symm.trans hshows
    · rintro ⟨-, hsame⟩
      refine ⟨_, rfl, fun p hp => ?_⟩
      have hcontains : win.config.Contains p := contains_iff.mpr hp
      rw [shadow_of_moved hmoved hcontains]
      split
      · next hmem => exact (h p hp).trans (hsame p hmem)
      · exact h p hp
  · have hy : 0 < src.size.y := hsrc.height_nonneg.lt_of_ne (Ne.symm (not_or.mp hrows).1)
    rw [move, move_eq_none _ hsrc hdst (not_or.mp hrows).2 hy]
    exact iff_of_false (fun ⟨_, hnone, _⟩ => by cases hnone) fun hmeets => hrows hmeets.1

/-- A call leaves the pictures the same if it meets its condition, and only then. -/
theorem call_agree_iff {c : WindowCall} (h : win.Agree) (hrange : win.InRange c) :
    (∃ win', win.call c = some win' ∧ win'.Agree) ↔ win.Meets c := by
  cases c with
  | write pos c => exact iff_of_true ⟨_, rfl, write_agree h hrange⟩ trivial
  | move dstPos src => exact move_agree_iff h hrange

/-! ## Sequences of calls -/

theorem call_config {c : WindowCall} (h : win.call c = some win') : win'.config = win.config := by
  cases c with
  | write pos c =>
    obtain rfl := Option.some.inj h
    rfl
  | move dstPos src =>
    obtain ⟨bytes, -, rfl⟩ := Option.map_eq_some_iff.mp h
    rfl

theorem run_append (calls : List WindowCall) (c : WindowCall) :
    win.run (calls ++ [c]) = (win.run calls).bind fun win' => win'.call c := by
  rw [run, List.foldlM_append]
  refine bind_congr fun win' => ?_
  rw [List.foldlM_cons]
  exact bind_pure _

theorem run_config (h : win.run calls = some win') : win'.config = win.config := by
  induction calls using List.reverseRecOn generalizing win' with
  | nil =>
    obtain rfl := Option.some.inj h
    rfl
  | append_singleton calls c ih =>
    rw [run_append] at h
    obtain ⟨win'', hrun, hcall⟩ := Option.bind_eq_some_iff.mp h
    exact (call_config hcall).trans (ih hrun)

theorem InRange.of_config {c : WindowCall} (h : win.InRange c) (hconfig : win'.config = win.config) :
    win'.InRange c := by
  cases c with
  | write pos c => exact (congrArg (·.Contains pos) hconfig).mpr h
  | move dstPos src =>
    rw [InRange, hconfig]
    exact h

theorem agree_new (window : Window) (format : PixelFormat)
    (fits : 4 * (window.width.toNat * window.height.toNat) < 2 ^ 32) : (new window format fits).Agree := by
  intro p _
  cases format <;> rfl

/-- From a new window on, the two pictures are the same and are drawn alike after every beginning of a
sequence of calls if and only if each of the calls meets its condition. -/
theorem pictures_iff (window : Window) (format : PixelFormat)
    (fits : 4 * (window.width.toNat * window.height.toNat) < 2 ^ 32) (calls : List WindowCall)
    (hrange : ∀ c ∈ calls, (new window format fits).InRange c) :
    (∀ before, before <+: calls →
        ∃ win, (new window format fits).run before = some win ∧ win.Agree ∧ win.DrawsSame) ↔
      ∀ before c, before ++ [c] <+: calls →
        ∃ win, (new window format fits).run before = some win ∧ win.Meets c := by
  refine History.forall_prefix_iff ?_ fun before c hbefore hgood => ?_
  · exact ⟨_, rfl, agree_new window format fits, (agree_new window format fits).drawsSame⟩
  · obtain ⟨win, hrun, hagree, -⟩ := hgood
    have hmem : c ∈ calls := hbefore.subset (List.mem_append_right _ (List.mem_singleton_self c))
    have hcall := call_agree_iff hagree ((hrange c hmem).of_config (run_config hrun))
    rw [run_append, hrun, Option.bind_some]
    constructor
    · rintro ⟨win', hwin', hagree', -⟩
      exact ⟨win, rfl, hcall.mp ⟨win', hwin', hagree'⟩⟩
    · rintro ⟨_, hsame, hmeets⟩
      obtain rfl := Option.some.inj hsame
      obtain ⟨win', hwin', hagree'⟩ := hcall.mpr hmeets
      exact ⟨win', hwin', hagree', hagree'.drawsSame⟩

/-- A red pixel below a black one, moved up: `At` still gives black, `DrawTo` without a transparent colour
shows red. -/
theorem move_disagrees : ¬∀ (window : Window) (format : PixelFormat)
    (fits : 4 * (window.width.toNat * window.height.toNat) < 2 ^ 32) (calls : List WindowCall),
    (∀ c ∈ calls, (new window format fits).InRange c) → ∀ before, before <+: calls →
      ∃ win, (new window format fits).run before = some win ∧ win.Agree := by
  intro h
  have hfits : 4 * ((1 : Int).toNat * (2 : Int).toNat) < 2 ^ 32 := by decide
  let red : WindowCall := .write ⟨0, 1⟩ ⟨255, 0, 0⟩
  let up : WindowCall := .move ⟨0, 0⟩ ⟨⟨0, 1⟩, ⟨1, 1⟩⟩
  let win := new ⟨1, 2, by decide, by decide, by decide, by decide, by decide⟩
    .kPixelBGRResv8BitPerColor hfits
  have hone : (0 : Int) + 1 ≤ 1 := le_rfl
  have htwo : (1 : Int) + 1 ≤ 2 := le_rfl
  have hsmall : (0 : Int) + 1 ≤ 2 := by decide
  have hred : win.InRange red := ⟨⟨le_rfl, hone⟩, Int.one_nonneg, htwo⟩
  have hup : win.InRange up :=
    ⟨⟨le_rfl, Int.one_nonneg, Int.one_nonneg, Int.one_nonneg, hone, htwo⟩,
      ⟨le_rfl, le_rfl, Int.one_nonneg, Int.one_nonneg, hone, hsmall⟩⟩
  obtain ⟨win', hrun, hagree⟩ := h _ _ hfits [red, up]
    (fun c hc => by
      rcases List.mem_cons.mp hc with rfl | hc
      · exact hred
      · obtain rfl := List.mem_singleton.mp hc
        exact hup) _ (List.prefix_refl _)
  -- the shadow buffer would have to show the same at both of the pixels
  have hwritten : (win.write ⟨0, 1⟩ ⟨255, 0, 0⟩).Agree := write_agree (agree_new _ _ _) hred
  have hsplit : win.run [red, up] = (win.run ([] ++ [red])).bind fun win => win.call up := run_append [red] up
  have hfirst : win.run ([] ++ [red]) = some (win.write ⟨0, 1⟩ ⟨255, 0, 0⟩) := run_append [] red
  rw [hsplit, hfirst, Option.bind_some] at hrun
  have hcall := (call_agree_iff hwritten (hup.of_config rfl)).mp ⟨win', hrun, hagree⟩
  have hsame := hcall.2 ⟨0, 0⟩ (by decide)
  have htop : win.Contains ⟨0, 0⟩ := ⟨⟨le_rfl, hone⟩, le_rfl, hsmall⟩
  have hbottom : win.Contains ⟨0, 1⟩ := ⟨⟨le_rfl, hone⟩, Int.one_nonneg, htwo⟩
  have hcolours := (hwritten ⟨0, 0⟩ htop).trans (hsame.trans (hwritten ⟨0, 1⟩ hbottom).symm)
  have hblack : (win.write ⟨0, 1⟩ ⟨255, 0, 0⟩).data ⟨0, 0⟩ = ⟨0, 0, 0⟩ := by
    rw [data_write, if_neg (by decide)]
    rfl
  have hredPixel : (win.write ⟨0, 1⟩ ⟨255, 0, 0⟩).data ⟨0, 1⟩ = ⟨255, 0, 0⟩ := by
    rw [data_write, if_pos rfl]
  rw [hblack, hredPixel] at hcolours
  exact absurd hcolours (by decide)

/-- A window of one pixel that is written to. -/
theorem pictures_iff_write :
    (∀ before, before <+: [WindowCall.write ⟨0, 0⟩ ⟨255, 0, 0⟩] →
        ∃ win, (new ⟨1, 1, by decide, by decide, by decide, by decide, by decide⟩
          .kPixelBGRResv8BitPerColor (by decide)).run before = some win ∧ win.Agree ∧ win.DrawsSame) ↔
      ∀ before c, before ++ [c] <+: [WindowCall.write ⟨0, 0⟩ ⟨255, 0, 0⟩] →
        ∃ win, (new ⟨1, 1, by decide, by decide, by decide, by decide, by decide⟩
          .kPixelBGRResv8BitPerColor (by decide)).run before = some win ∧ win.Meets c :=
  pictures_iff _ _ _ _ fun c hc => by
    obtain rfl := List.mem_singleton.mp hc
    exact ⟨⟨by decide, by decide⟩, by decide, by decide⟩

end BufferedWindow

end MikanOS
