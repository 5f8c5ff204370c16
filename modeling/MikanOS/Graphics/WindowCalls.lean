import MikanOS.Graphics.PixelWriter
import MikanOS.Library.Double

/-! # The system calls that draw into windows

`WinFillRectangle`, `WinWriteString` and `WinDrawLine` of `syscall.cpp` hand the coordinates of the
application to the writer of the window, and `Window::Write` indexes `data_` and the shadow buffer with
them. -/

namespace MikanOS

/-- The size of a window. Its `data_` is in memory, so it has far less than `2 ^ 50` pixels. -/
structure Window where
  width : Int
  height : Int
  width_nonneg : 0 ≤ width
  width_lt : width < 2 ^ 31
  height_nonneg : 0 ≤ height
  height_lt : height < 2 ^ 31
  pixels_le : width * height ≤ 2 ^ 50

/-- `Window::Write` at the position stays inside of `data_`. -/
def Window.Contains (win : Window) (pos : Vector2D) : Prop :=
  (0 ≤ pos.x ∧ pos.x < win.width) ∧ 0 ≤ pos.y ∧ pos.y < win.height

instance (win : Window) (pos : Vector2D) : Decidable (win.Contains pos) :=
  inferInstanceAs (Decidable (_ ∧ _))

/-- An argument of a system call as an `int`. -/
def intArg (arg : UInt64) : Int := wrap32 arg.toNat

/-- `DoWinFunc`: the window of the layer with what `f` writes to it; without a layer nothing is
written. -/
def DoWinFunc (findLayer : UInt64 → Option Window) (f : Window → List Vector2D)
    (layerIdFlags : UInt64) : Option (Window × List Vector2D) :=
  (findLayer (layerIdFlags &&& 0xffffffff)).map fun win => (win, f win)

section

variable (findLayer : UInt64 → Option Window) (font : Font)

def WinWriteString (arg1 arg2 arg3 : UInt64) (s : Nat → UInt8) (turns : Nat) :
    Option (Window × List Vector2D) :=
  DoWinFunc findLayer (fun _ => WriteString font ⟨intArg arg2, intArg arg3⟩ s turns) arg1

def WinFillRectangle (arg1 arg2 arg3 arg4 arg5 : UInt64) : Option (Window × List Vector2D) :=
  DoWinFunc findLayer (fun _ =>
    FillRectangle ⟨intArg arg2, intArg arg3⟩ ⟨intArg arg4, intArg arg5⟩) arg1

/-- A double as an `int`; the processor gives the least `int` for values out of range. -/
def doubleToInt (v : Int) : Int := if -2 ^ 31 ≤ v ∧ v < 2 ^ 31 then v else -2 ^ 31

/-- The loop of `WinDrawLine` along the axis `a` on which the line is longer, in doubles. -/
def lineLoop (a0 b0 a1 b1 da db : Int) : List (Int × Int) :=
  let (a0, b0, a1, b1) := if da < 0 then (a1, b1, a0, b0) else (a0, b0, a1, b1)
  let m := Double.round ((db : ℚ) / da)
  (List.range (a1 + 1 - a0).toNat).map fun (k : Nat) =>
    let a := a0 + k
    let v := Double.round (Double.round (m * (wrap32 (a - a0) : Int)) + (b0 : ℚ))
    (a, doubleToInt (if b1 ≥ b0 then ⌊v⌋ else ⌈v⌉))

/-- The lambda of `WinDrawLine`. -/
def drawLine (x0 y0 x1 y1 : Int) : List Vector2D :=
  let dx := wrap32 (wrap32 (x1 - x0) + (wrap32 (x1 - x0)).sign)
  let dy := wrap32 (wrap32 (y1 - y0) + (wrap32 (y1 - y0)).sign)
  if dx = 0 ∧ dy = 0 then [⟨x0, y0⟩]
  else if dx.natAbs ≥ dy.natAbs then
    (lineLoop x0 y0 x1 y1 dx dy).map fun p => ⟨p.1, p.2⟩
  else (lineLoop y0 x0 y1 x1 dy dx).map fun p => ⟨p.2, p.1⟩

def WinDrawLine (arg1 arg2 arg3 arg4 arg5 : UInt64) : Option (Window × List Vector2D) :=
  DoWinFunc findLayer (fun _ => drawLine (intArg arg2) (intArg arg3) (intArg arg4) (intArg arg5)) arg1

end

/-! ## Boxes of pixels -/

variable {win : Window} {pos : Vector2D} {font : Font}

/-- The corners of the box around the pixels of a stamp lie in the window. -/
def StampFits (win : Window) (pos : Vector2D) (stamp : List Vector2D) : Prop :=
  (∀ a, (stamp.map Vector2D.x).min? = some a ∨ (stamp.map Vector2D.x).max? = some a →
    0 ≤ wrap32 (pos.x + a) ∧ wrap32 (pos.x + a) < win.width) ∧
  ∀ a, (stamp.map Vector2D.y).min? = some a ∨ (stamp.map Vector2D.y).max? = some a →
    0 ≤ wrap32 (pos.y + a) ∧ wrap32 (pos.y + a) < win.height

/-- The offsets of a stamp do not reach beyond the `int`s. -/
def Stamp (stamp : List Vector2D) : Prop :=
  ∀ d ∈ stamp, (0 ≤ d.x ∧ d.x < 2 ^ 31) ∧ 0 ≤ d.y ∧ d.y < 2 ^ 31

/-- On one axis: what lies between two offsets that are inside is inside, too. -/
theorem axis_fits_iff {l : List Int} {p limit : Int} (hlimit : limit < 2 ^ 31)
    (hl : ∀ a ∈ l, 0 ≤ a ∧ a < 2 ^ 31) :
    (∀ a ∈ l, 0 ≤ wrap32 (p + a) ∧ wrap32 (p + a) < limit) ↔
      ∀ a, l.min? = some a ∨ l.max? = some a → 0 ≤ wrap32 (p + a) ∧ wrap32 (p + a) < limit := by
  constructor
  · rintro h a (ha | ha)
    · exact h a (List.min?_mem ha)
    · exact h a (List.max?_mem ha)
  · intro h a ha
    obtain ⟨lo, hlo⟩ : ∃ lo, l.min? = some lo :=
      Option.isSome_iff_exists.mp (List.isSome_min?_of_mem ha)
    obtain ⟨hi, hhi⟩ : ∃ hi, l.max? = some hi :=
      Option.isSome_iff_exists.mp (List.isSome_max?_of_mem ha)
    have hle := (List.min?_eq_some_iff.mp hlo).2 a ha
    have hge := (List.max?_eq_some_iff.mp hhi).2 a ha
    have hlo' := hl lo (List.min?_mem hlo)
    have hhi' := hl hi (List.max?_mem hhi)
    have h1 := h lo (.inl hlo)
    have h2 := h hi (.inr hhi)
    simp only [wrap32] at *
    omega

theorem stampFits_iff {stamp : List Vector2D} (hstamp : Stamp stamp) :
    (∀ d ∈ stamp, win.Contains (pos + d)) ↔ StampFits win pos stamp := by
  have hx := axis_fits_iff (l := stamp.map Vector2D.x) (p := pos.x) win.width_lt fun a ha => by
    obtain ⟨d, hd, rfl⟩ := List.mem_map.mp ha
    exact (hstamp d hd).1
  have hy := axis_fits_iff (l := stamp.map Vector2D.y) (p := pos.y) win.height_lt fun a ha => by
    obtain ⟨d, hd, rfl⟩ := List.mem_map.mp ha
    exact (hstamp d hd).2
  rw [StampFits, ← hx, ← hy]
  simp only [List.forall_mem_map, Window.Contains, Vector2D.add_x, Vector2D.add_y]
  exact ⟨fun h => ⟨fun d hd => (h d hd).1, fun d hd => (h d hd).2⟩, fun h d hd => ⟨h.1 d hd, h.2 d hd⟩⟩

/-! ## Rectangles -/

/-- The rectangle is empty or inside the window. -/
def RectangleFits (win : Window) (x y w h : Int) : Prop :=
  w ≤ 0 ∨ h ≤ 0 ∨ (0 ≤ x ∧ x + w ≤ win.width) ∧ 0 ≤ y ∧ y + h ≤ win.height

instance (win : Window) (x y w h : Int) : Decidable (RectangleFits win x y w h) :=
  inferInstanceAs (Decidable (_ ∨ _))

theorem wrap32_range (v : Int) : -2 ^ 31 ≤ wrap32 v ∧ wrap32 v < 2 ^ 31 := by
  rw [wrap32]
  omega

theorem fillRectangle_contains_iff {size : Vector2D} (hx : -2 ^ 31 ≤ pos.x ∧ pos.x < 2 ^ 31)
    (hy : -2 ^ 31 ≤ pos.y ∧ pos.y < 2 ^ 31) (hw : size.x < 2 ^ 31) (hh : size.y < 2 ^ 31) :
    (∀ p ∈ FillRectangle pos size, win.Contains p) ↔
      RectangleFits win pos.x pos.y size.x size.y := by
  have hW := win.width_lt
  have hH := win.height_lt
  simp only [FillRectangle, List.mem_flatMap, List.mem_map, List.mem_range, RectangleFits,
    Window.Contains]
  constructor
  · intro h
    by_cases hempty : size.x ≤ 0 ∨ size.y ≤ 0
    · exact hempty.imp_right .inl
    · -- the two corners are among the pixels
      have hcorner (dx dy : Nat) (hdx : dx < size.x.toNat) (hdy : dy < size.y.toNat) :=
        h (pos + ⟨dx, dy⟩) ⟨dy, hdy, dx, hdx, rfl⟩
      have h0 := hcorner 0 0 (by omega) (by omega)
      have h1 := hcorner (size.x.toNat - 1) (size.y.toNat - 1) (by omega) (by omega)
      simp only [Vector2D.add_x, Vector2D.add_y, wrap32] at h0 h1
      omega
  · rintro h p ⟨dy, hdy, dx, hdx, rfl⟩
    simp only [Vector2D.add_x, Vector2D.add_y, wrap32]
    omega

/-! ## Text -/

/-- The bitmaps that a character is drawn with, relative to the pen. -/
def Font.stamps (font : Font) (c : Nat) : List (Vector2D × List Vector2D) :=
  let ascii (c : Nat) := ((font.GetFont c).map asciiPixels).getD []
  if c ≤ 0x7f then [(⟨0, 0⟩, ascii c)]
  else
    match font.RenderUnicode c with
    | none => [(⟨0, 0⟩, ascii 0x3f), (⟨8, 0⟩, ascii 0x3f)]
    | some glyph => [(glyph.topleft, glyph.pixels)]

/-- The bitmaps of all characters of the text are inside the window: the corners of the boxes around
their pixels are. -/
def TextFits (win : Window) (font : Font) (pos : Vector2D) (s : Nat → UInt8) (turns : Nat) : Prop :=
  ∀ cell ∈ textCells s turns 0 0, ∀ stamp ∈ font.stamps cell.2,
    StampFits win (pos + ⟨wrap32 (8 * cell.1), 0⟩ + stamp.1) stamp.2

theorem add_zero_pen (p q : Vector2D) : p + q + ⟨0, 0⟩ = p + q := by
  ext <;> simp

theorem stamp_asciiPixels (bitmap : Nat → UInt8) : Stamp (asciiPixels bitmap) := by
  intro d hd
  simp only [asciiPixels, List.mem_flatMap, List.mem_map, List.mem_filter, List.mem_range] at hd
  obtain ⟨dy, hdy, dx, ⟨hdx, -⟩, rfl⟩ := hd
  simp only
  omega

theorem stamp_pixels (glyph : Glyph) : Stamp glyph.pixels := by
  intro d hd
  simp only [Glyph.pixels, List.mem_flatMap, List.mem_map, List.mem_filter, List.mem_range] at hd
  obtain ⟨dy, hdy, dx, ⟨hdx, -⟩, rfl⟩ := hd
  have := glyph.rows_lt
  have := glyph.width_lt
  simp only
  omega

theorem stamp_of_mem_stamps {c : Nat} {stamp : Vector2D × List Vector2D}
    (h : stamp ∈ font.stamps c) : Stamp stamp.2 := by
  have hascii (c : Nat) : Stamp (((font.GetFont c).map asciiPixels).getD []) := by
    cases font.GetFont c with
    | none => exact fun d hd => absurd hd List.not_mem_nil
    | some bitmap => exact stamp_asciiPixels bitmap
  simp only [Font.stamps] at h
  split at h
  · rw [List.mem_singleton.mp h]
    exact hascii c
  · split at h
    · rcases List.mem_pair.mp h with rfl | rfl
      · exact hascii 0x3f
      · exact hascii 0x3f
    · rw [List.mem_singleton.mp h]
      exact stamp_pixels _

theorem WriteAscii_eq (pos : Vector2D) (c : Nat) : WriteAscii font pos c =
    (((font.GetFont c).map asciiPixels).getD []).map (pos + ·) := by
  rw [WriteAscii]
  cases font.GetFont c <;> rfl

/-- `WriteUnicode` draws the bitmaps of the character. -/
theorem WriteUnicode_eq (p q : Vector2D) (c : Nat) : WriteUnicode font (p + q) c =
    (font.stamps c).flatMap fun stamp => stamp.2.map (p + q + stamp.1 + ·) := by
  rw [WriteUnicode, Font.stamps]
  split
  · rw [WriteAscii_eq, List.flatMap_singleton, add_zero_pen]
  · cases font.RenderUnicode c with
    | none =>
      simp only [WriteAscii_eq, List.flatMap_cons, List.flatMap_nil, List.append_nil, add_zero_pen]
    | some glyph => simp only [List.flatMap_cons, List.flatMap_nil, List.append_nil]

theorem writeString_contains_iff {s : Nat → UInt8} {turns : Nat} :
    (∀ p ∈ WriteString font pos s turns, win.Contains p) ↔ TextFits win font pos s turns := by
  simp only [WriteString, WriteUnicode_eq, List.mem_flatMap, List.mem_map, TextFits]
  constructor
  · intro h cell hcell stamp hstamp
    refine (stampFits_iff (stamp_of_mem_stamps hstamp)).mp fun d hd => ?_
    exact h _ ⟨cell, hcell, stamp, hstamp, d, hd, rfl⟩
  · rintro h p ⟨cell, hcell, stamp, hstamp, d, hd, rfl⟩
    exact (stampFits_iff (stamp_of_mem_stamps hstamp)).mpr (h cell hcell stamp hstamp) d hd

/-! ## Lines -/

section

variable {d N k b B : ℚ}

/-- The rounding errors on the way to the other coordinate stay below the slope. -/
theorem abs_round_slope_le (hN : 2 ≤ N) (hk0 : 0 ≤ k) (hk : k ≤ N - 1) :
    |Double.round (Double.round (d / N) * k)| ≤ |d| - |d| / N + 3 * |d| / 2 ^ 53 := by
  have hNpos : 0 < N := by linarith
  have hm := Double.abs_round_le (d / N)
  rw [abs_div, abs_of_pos hNpos] at hm
  have hp := Double.abs_round_le (Double.round (d / N) * k)
  rw [abs_mul, abs_of_nonneg hk0] at hp
  have hslope : 0 ≤ |d| / N := by positivity
  have hd : |d| / N * N = |d| := div_mul_cancel₀ _ hNpos.ne'
  calc |Double.round (Double.round (d / N) * k)|
      ≤ |Double.round (d / N)| * k * (1 + 1 / 2 ^ 53) := hp
    _ ≤ |d| / N * (1 + 1 / 2 ^ 53) * k * (1 + 1 / 2 ^ 53) := by gcongr
    _ ≤ |d| / N * (1 + 1 / 2 ^ 53) * (N - 1) * (1 + 1 / 2 ^ 53) := by gcongr
    _ = (|d| / N * N - |d| / N) * (1 + 1 / 2 ^ 53) ^ 2 := by ring
    _ = (|d| - |d| / N) * (1 + 1 / 2 ^ 53) ^ 2 := by rw [hd]
    _ ≤ |d| - |d| / N + 3 * |d| / 2 ^ 53 := by nlinarith [abs_nonneg d]

/-- The other coordinate in `WinDrawLine`, before it is rounded to an integer. -/
def lineValue (d N k b : ℚ) : ℚ := Double.round (Double.round (Double.round (d / N) * k) + b)

/-- The other coordinate at step `k` of `n` lies between those of the two ends. -/
theorem line_bounds {n k Δ b A B : ℤ} (hn : 1 ≤ n) (hk0 : 0 ≤ k) (hk : k ≤ n) (hΔ : |Δ| ≤ n)
    (hb0 : 0 ≤ b) (hb : b < B) (he0 : 0 ≤ b + Δ) (he : b + Δ < B) (hA : n + 1 ≤ A)
    (hAB : A * B ≤ 2 ^ 50) :
    (0 ≤ Δ → (b : ℚ) ≤ lineValue ((Δ + Δ.sign : ℤ) : ℚ) ((n + 1 : ℤ) : ℚ) k b ∧
      lineValue ((Δ + Δ.sign : ℤ) : ℚ) ((n + 1 : ℤ) : ℚ) k b < b + Δ + 1) ∧
    (Δ < 0 → (b : ℚ) + Δ - 1 < lineValue ((Δ + Δ.sign : ℤ) : ℚ) ((n + 1 : ℤ) : ℚ) k b ∧
      lineValue ((Δ + Δ.sign : ℤ) : ℚ) ((n + 1 : ℤ) : ℚ) k b ≤ b) := by
  -- the sizes, as rational numbers
  have hB : (1 : ℚ) ≤ B := by exact_mod_cast (show (1 : ℤ) ≤ B by omega)
  have hN : (2 : ℚ) ≤ ((n + 1 : ℤ) : ℚ) := by exact_mod_cast (show (2 : ℤ) ≤ n + 1 by omega)
  have hNB : ((n + 1 : ℤ) : ℚ) * B ≤ 2 ^ 50 := by
    have h : (n + 1) * B ≤ A * B := Int.mul_le_mul_of_nonneg_right hA (by omega)
    exact_mod_cast h.trans hAB
  have hB50 : (B : ℚ) ≤ 2 ^ 50 := by nlinarith
  have hk0' : (0 : ℚ) ≤ k := by exact_mod_cast hk0
  have hk' : (k : ℚ) ≤ ((n + 1 : ℤ) : ℚ) - 1 := by
    push_cast
    linarith [show (k : ℚ) ≤ n by exact_mod_cast hk]
  have hb0' : (0 : ℚ) ≤ b := by exact_mod_cast hb0
  have hb' : (b : ℚ) + 1 ≤ B := by exact_mod_cast (show b + 1 ≤ B by omega)
  have hdN : |((Δ + Δ.sign : ℤ) : ℚ)| ≤ ((n + 1 : ℤ) : ℚ) := by
    have h : |Δ + Δ.sign| ≤ n + 1 := by
      rcases lt_trichotomy Δ 0 with h | rfl | h
      · rw [Int.sign_eq_neg_one_of_neg h]
        rw [abs_le] at hΔ ⊢
        omega
      · simpa using (show 0 ≤ n + 1 by omega)
      · rw [Int.sign_eq_one_of_pos h]
        rw [abs_le] at hΔ ⊢
        omega
    exact_mod_cast h
  have hp := abs_round_slope_le (d := ((Δ + Δ.sign : ℤ) : ℚ)) hN hk0' hk'
  have hmk := Double.abs_round_le (((Δ + Δ.sign : ℤ) : ℚ) / ((n + 1 : ℤ) : ℚ))
  generalize hd : ((Δ + Δ.sign : ℤ) : ℚ) = d at *
  generalize ((n + 1 : ℤ) : ℚ) = N at *
  have hNpos : 0 < N := by linarith
  have hq : |d / N| ≤ 1 := by
    rw [abs_div, abs_of_pos hNpos]
    exact (div_le_one hNpos).mpr hdN
  have hmk' : |Double.round (d / N) * k| < 2 ^ 53 := by
    rw [abs_mul, abs_of_nonneg hk0']
    have hN50 : N ≤ 2 ^ 50 := by nlinarith
    calc |Double.round (d / N)| * k ≤ |d / N| * (1 + 1 / 2 ^ 53) * k := by gcongr
      _ ≤ 1 * (1 + 1 / 2 ^ 53) * 2 ^ 50 := by gcongr; linarith
      _ < 2 ^ 53 := by norm_num
  -- what the slope leaves between the last step and the next integer
  have hslope (h : 1 ≤ |d|) : (B : ℚ) / 2 ^ 50 ≤ |d| / N := by
    rw [div_le_div_iff₀ (by norm_num) hNpos]
    nlinarith
  have hdB (h : |d| ≤ B) (h1 : 1 ≤ |d|) :
      |Double.round (Double.round (d / N) * k)| ≤ |d| - B / 2 ^ 50 + 3 * B / 2 ^ 53 := by
    have := hslope h1
    linarith
  have herr := Double.abs_round_sub_le (Double.round (Double.round (d / N) * k) + b)
  have hcross (q : ℚ) (h : |q| < 2 ^ 53) := And.intro (Double.le_round (q := q) (n := b) h)
    (Double.round_le (q := q) (n := b) h)
  have hpos (h : 0 ≤ d) : 0 ≤ Double.round (Double.round (d / N) * k) := by
    have h1 : ((0 : ℤ) : ℚ) ≤ Double.round (d / N) :=
      Double.le_round (hq.trans_lt (by norm_num)) (by exact_mod_cast div_nonneg h hNpos.le)
    have h2 : ((0 : ℤ) : ℚ) ≤ Double.round (Double.round (d / N) * k) :=
      Double.le_round hmk' (by exact_mod_cast mul_nonneg (by exact_mod_cast h1) hk0')
    exact_mod_cast h2
  have hneg (h : d ≤ 0) : Double.round (Double.round (d / N) * k) ≤ 0 := by
    have h1 : Double.round (d / N) ≤ ((0 : ℤ) : ℚ) :=
      Double.round_le (hq.trans_lt (by norm_num))
        (by exact_mod_cast div_nonpos_of_nonpos_of_nonneg h hNpos.le)
    have h2 : Double.round (Double.round (d / N) * k) ≤ ((0 : ℤ) : ℚ) :=
      Double.round_le hmk'
        (by exact_mod_cast mul_nonpos_of_nonpos_of_nonneg (by exact_mod_cast h1) hk0')
    exact_mod_cast h2
  rw [lineValue]
  generalize Double.round (Double.round (d / N) * k) = p at *
  have he' : (b : ℚ) + Δ + 1 ≤ B := by exact_mod_cast (show b + Δ + 1 ≤ B by omega)
  have he0' : (0 : ℚ) ≤ b + Δ := by exact_mod_cast he0
  rcases lt_trichotomy Δ 0 with hΔ0 | rfl | hΔ0
  · refine ⟨fun h => absurd hΔ0 (not_lt.mpr h), fun _ => ?_⟩
    have hΔ1 : (Δ : ℚ) ≤ -1 := by exact_mod_cast (show Δ ≤ -1 by omega)
    have hd' : d = Δ - 1 := by
      rw [← hd, Int.sign_eq_neg_one_of_neg hΔ0]
      push_cast
      ring
    have habs : |d| = 1 - Δ := by
      rw [hd', abs_of_nonpos (by linarith)]
      ring
    have hp' := hdB (by rw [habs]; linarith) (by rw [habs]; linarith)
    rw [habs] at hp'
    have hp0 := hneg (by rw [hd']; linarith)
    rw [abs_of_nonpos hp0] at hp'
    have hsum : |p + b| ≤ B := by
      rw [abs_le]
      constructor <;> linarith
    refine ⟨?_, (hcross (p + b) (by linarith)).2 (by linarith)⟩
    have := (abs_le.mp (herr.trans (by gcongr))).1
    linarith
  · refine ⟨fun _ => ?_, fun h => absurd h (lt_irrefl 0)⟩
    have hd' : d = 0 := by rw [← hd]; simp
    have hp0 : p = 0 := le_antisymm (hneg hd'.le) (hpos hd'.ge)
    rw [hp0, zero_add, Double.round_intCast (by rw [abs_of_nonneg hb0']; linarith)]
    push_cast
    constructor <;> linarith
  · refine ⟨fun _ => ?_, fun h => absurd h (not_lt.mpr hΔ0.le)⟩
    have hΔ1 : (1 : ℚ) ≤ Δ := by exact_mod_cast (show 1 ≤ Δ by omega)
    have hd' : d = Δ + 1 := by
      rw [← hd, Int.sign_eq_one_of_pos hΔ0]
      push_cast
      ring
    have habs : |d| = Δ + 1 := by rw [hd', abs_of_nonneg (by linarith)]
    have hp' := hdB (by rw [habs]; linarith) (by rw [habs]; linarith)
    rw [habs] at hp'
    have hp0 := hpos (by rw [hd']; linarith)
    rw [abs_of_nonneg hp0] at hp'
    have hsum : |p + b| ≤ B := by
      rw [abs_of_nonneg (by linarith)]
      linarith
    refine ⟨(hcross (p + b) (by linarith)).1 (by linarith), ?_⟩
    have := (abs_le.mp (herr.trans (by gcongr))).2
    linarith

end

/-- The loop of a line between two points inside of a window. -/
theorem lineLoop_inside {a0 b0 a1 b1 da db A B : ℤ} (hA : A < 2 ^ 31) (hB : B < 2 ^ 31)
    (hAB : A * B ≤ 2 ^ 50) (ha0 : 0 ≤ a0 ∧ a0 < A) (hb0 : 0 ≤ b0 ∧ b0 < B) (ha1 : 0 ≤ a1 ∧ a1 < A)
    (hb1 : 0 ≤ b1 ∧ b1 < B) (hda : da = a1 - a0 + (a1 - a0).sign)
    (hdb : db = b1 - b0 + (b1 - b0).sign) (hle : db.natAbs ≤ da.natAbs) (hne : da ≠ 0)
    {p : Int × Int} (hp : p ∈ lineLoop a0 b0 a1 b1 da db) :
    (0 ≤ p.1 ∧ p.1 < A) ∧ 0 ≤ p.2 ∧ p.2 < B := by
  -- the line from its left end `a` on, `n` steps wide
  have hrow {a b a' b' : ℤ} (ha : 0 ≤ a ∧ a < A) (hb : 0 ≤ b ∧ b < B) (ha' : a' < A)
      (hb' : 0 ≤ b' ∧ b' < B) (hlt : a < a') (hslope : |b' - b| ≤ a' - a) {k : ℕ}
      (hk : k < (a' + 1 - a).toNat) {v : ℚ} (hv : v = Double.round (Double.round (Double.round
        (((b' - b + (b' - b).sign : ℤ) : ℚ) / ((a' - a + 1 : ℤ) : ℚ)) *
          (wrap32 (a + k - a) : ℤ)) + (b : ℚ))) :
      (0 ≤ a + k ∧ a + k < A) ∧ 0 ≤ doubleToInt (if b' ≥ b then ⌊v⌋ else ⌈v⌉) ∧
        doubleToInt (if b' ≥ b then ⌊v⌋ else ⌈v⌉) < B := by
    have hwrap : wrap32 (a + k - a) = k := by rw [wrap32]; omega
    rw [hwrap] at hv
    obtain ⟨hup, hdown⟩ := line_bounds (n := a' - a) (k := (k : ℤ)) (A := A) (by omega) (by omega)
      (by omega) hslope hb.1 hb.2 (by omega) (by omega) (by omega) hAB
    rw [lineValue, ← hv] at hup hdown
    refine ⟨by omega, ?_⟩
    split
    · rename_i hge
      obtain ⟨hlo, hhi⟩ := hup (by omega)
      have h1 : b ≤ ⌊v⌋ := Int.le_floor.mpr hlo
      have h2 : ⌊v⌋ < b + (b' - b) + 1 := Int.floor_lt.mpr (by exact_mod_cast hhi)
      rw [doubleToInt, if_pos (by omega)]
      omega
    · rename_i hge
      obtain ⟨hlo, hhi⟩ := hdown (by omega)
      have h1 : ⌈v⌉ ≤ b := Int.ceil_le.mpr hhi
      have h2 : b + (b' - b) - 1 < ⌈v⌉ := Int.lt_ceil.mpr (by exact_mod_cast hlo)
      rw [doubleToInt, if_pos (by omega)]
      omega
  rcases lt_trichotomy a0 a1 with hlt | heq | hlt
  · have hsign : (a1 - a0).sign = 1 := Int.sign_eq_one_of_pos (by omega)
    have hslope : |b1 - b0| ≤ a1 - a0 := by
      rcases lt_trichotomy (b1 - b0) 0 with h | h | h
      · rw [Int.sign_eq_neg_one_of_neg h] at hdb
        rw [abs_le]
        omega
      · rw [h, abs_zero]
        omega
      · rw [Int.sign_eq_one_of_pos h] at hdb
        rw [abs_le]
        omega
    rw [hsign] at hda
    rw [lineLoop, if_neg (by omega)] at hp
    obtain ⟨k, hk, rfl⟩ := List.mem_map.mp hp
    exact hrow ha0 hb0 ha1.2 hb1 hlt hslope (List.mem_range.mp hk) (by rw [hda, hdb])
  · rw [heq, sub_self, Int.sign_zero] at hda
    exact absurd hda hne
  · have hsign : (a1 - a0).sign = -1 := Int.sign_eq_neg_one_of_neg (by omega)
    have hslope : |b0 - b1| ≤ a0 - a1 := by
      rcases lt_trichotomy (b1 - b0) 0 with h | h | h
      · rw [Int.sign_eq_neg_one_of_neg h] at hdb
        rw [abs_le]
        omega
      · rw [abs_le]
        omega
      · rw [Int.sign_eq_one_of_pos h] at hdb
        rw [abs_le]
        omega
    rw [hsign] at hda
    have hdb' : db = -(b0 - b1 + (b0 - b1).sign) := by
      rw [hdb, show b0 - b1 = -(b1 - b0) by ring, Int.sign_neg]
      ring
    have hda' : da = -(a0 - a1 + 1) := by
      rw [hda]
      ring
    rw [lineLoop, if_pos (by omega)] at hp
    obtain ⟨k, hk, rfl⟩ := List.mem_map.mp hp
    refine hrow ha1 hb1 ha0.2 hb0 hlt hslope (List.mem_range.mp hk) ?_
    rw [hda', hdb', Int.cast_neg, Int.cast_neg, neg_div_neg_eq]

theorem drawLine_contains {x0 y0 x1 y1 : Int} (h0 : win.Contains ⟨x0, y0⟩)
    (h1 : win.Contains ⟨x1, y1⟩) : ∀ p ∈ drawLine x0 y0 x1 y1, win.Contains p := by
  obtain ⟨hx0, hy0⟩ := h0
  obtain ⟨hx1, hy1⟩ := h1
  simp only at hx0 hy0 hx1 hy1
  have hW := win.width_lt
  have hH := win.height_lt
  -- no difference of two coordinates of the window wraps around
  have hdiff {u v limit : Int} (hu : 0 ≤ u ∧ u < limit) (hv : 0 ≤ v ∧ v < limit)
      (hlimit : limit < 2 ^ 31) :
      wrap32 (wrap32 (v - u) + (wrap32 (v - u)).sign) = v - u + (v - u).sign := by
    have hwrap : wrap32 (v - u) = v - u := wrap32_of_range (by omega) (by omega)
    rw [hwrap]
    rcases lt_trichotomy (v - u) 0 with h | h | h
    · rw [Int.sign_eq_neg_one_of_neg h]
      exact wrap32_of_range (by omega) (by omega)
    · rw [h]
      rfl
    · rw [Int.sign_eq_one_of_pos h]
      exact wrap32_of_range (by omega) (by omega)
  intro p hp
  rw [drawLine, hdiff hx0 hx1 hW, hdiff hy0 hy1 hH] at hp
  split at hp
  · rw [List.mem_singleton.mp hp]
    exact ⟨hx0, hy0⟩
  · rename_i hne
    split at hp
    · rename_i hge
      obtain ⟨q, hq, rfl⟩ := List.mem_map.mp hp
      exact lineLoop_inside hW hH win.pixels_le hx0 hy0 hx1 hy1 rfl rfl hge (by omega) hq
    · rename_i hlt
      obtain ⟨q, hq, rfl⟩ := List.mem_map.mp hp
      have := lineLoop_inside hH hW (by rw [mul_comm]; exact win.pixels_le) hy0 hx0 hy1 hx1 rfl rfl
        (by omega) (by omega) hq
      exact ⟨this.2, this.1⟩

/-! ## All arguments -/

/-- Rectangles and texts are drawn inside the window exactly if they fit in it, and lines if their ends
do. -/
theorem windowCalls_contains (findLayer : UInt64 → Option Window) (font : Font)
    (arg1 : UInt64) :
    (∀ arg2 arg3 arg4 arg5 win writes,
      WinFillRectangle findLayer arg1 arg2 arg3 arg4 arg5 = some (win, writes) →
      ((∀ pos ∈ writes, win.Contains pos) ↔
        RectangleFits win (intArg arg2) (intArg arg3) (intArg arg4) (intArg arg5))) ∧
    (∀ arg2 arg3 s turns win writes,
      WinWriteString findLayer font arg1 arg2 arg3 s turns = some (win, writes) →
      ((∀ pos ∈ writes, win.Contains pos) ↔
        TextFits win font ⟨intArg arg2, intArg arg3⟩ s turns)) ∧
    ∀ arg2 arg3 arg4 arg5 win writes,
      WinDrawLine findLayer arg1 arg2 arg3 arg4 arg5 = some (win, writes) →
      win.Contains ⟨intArg arg2, intArg arg3⟩ → win.Contains ⟨intArg arg4, intArg arg5⟩ →
      ∀ pos ∈ writes, win.Contains pos := by
  have hwrites {f : Window → List Vector2D} {win : Window} {writes : List Vector2D}
      (h : DoWinFunc findLayer f arg1 = some (win, writes)) : writes = f win := by
    obtain ⟨w, -, hw⟩ := Option.map_eq_some_iff.mp h
    cases hw
    rfl
  refine ⟨fun arg2 arg3 arg4 arg5 win writes h => ?_, fun arg2 arg3 s turns win writes h => ?_,
    fun arg2 arg3 arg4 arg5 win writes h h0 h1 => ?_⟩
  · rw [hwrites h]
    exact fillRectangle_contains_iff (wrap32_range _) (wrap32_range _) (wrap32_range _).2
      (wrap32_range _).2
  · rw [hwrites h]
    exact writeString_contains_iff
  · rw [hwrites h]
    exact drawLine_contains h0 h1

/-- A window of 100 by 50 pixels. -/
def smallWindow : Window := ⟨100, 50, by decide, by decide, by decide, by decide, by decide⟩

/-- A font with one pixel in each character. -/
def dotFont : Font := ⟨fun _ => some fun dy => if dy = 0 then 0x80 else 0, fun _ => none⟩

/-- The layer 1 has the window. -/
def smallLayers (id : UInt64) : Option Window := if id = 1 then some smallWindow else none

def letterA : Nat → UInt8 := fun i => if i = 0 then 0x41 else 0

theorem windowCalls_contains_small :
    (∃ writes, WinFillRectangle smallLayers 1 90 40 10 10 = some (smallWindow, writes) ∧
      ∀ pos ∈ writes, smallWindow.Contains pos) ∧
    TextFits smallWindow dotFont ⟨intArg 99, intArg 49⟩ letterA 2 ∧
    ∃ writes, WinDrawLine smallLayers 1 99 49 0 0 = some (smallWindow, writes) ∧
      ∀ pos ∈ writes, smallWindow.Contains pos := by
  obtain ⟨hrect, htext, hline⟩ := windowCalls_contains smallLayers dotFont 1
  refine ⟨⟨_, rfl, (hrect 90 40 10 10 _ _ rfl).mpr (by decide)⟩, ?_,
    ⟨_, rfl, hline 99 49 0 0 _ _ rfl (by decide) (by decide)⟩⟩
  exact (htext 99 49 letterA 2 _ _ rfl).mp (by decide +kernel)

/-- A rectangle, a text and a line that reach over the right border. -/
theorem not_windowCalls_contains :
    (∃ writes, WinFillRectangle smallLayers 1 90 10 20 5 = some (smallWindow, writes) ∧
      ⟨100, 10⟩ ∈ writes ∧ ¬ smallWindow.Contains ⟨100, 10⟩) ∧
    (∃ writes, WinWriteString smallLayers dotFont 1 100 0 letterA 2 = some (smallWindow, writes) ∧
      ⟨100, 0⟩ ∈ writes ∧ ¬ smallWindow.Contains ⟨100, 0⟩) ∧
    ∃ writes, WinDrawLine smallLayers 1 100 0 100 0 = some (smallWindow, writes) ∧
      ⟨100, 0⟩ ∈ writes ∧ ¬ smallWindow.Contains ⟨100, 0⟩ :=
  ⟨⟨_, rfl, by decide +kernel, by decide⟩, ⟨_, rfl, by decide +kernel, by decide⟩,
    ⟨_, rfl, by decide +kernel, by decide⟩⟩

end MikanOS
