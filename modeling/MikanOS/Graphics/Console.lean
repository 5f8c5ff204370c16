import MikanOS.Library.TextScreen
import MikanOS.Library.Transition
import MikanOS.Graphics.WindowBuffers

/-! # The console

`Console` of `console.cpp`, which draws into the frame buffer until `SetWindow` gives it a window. Without a window
it redraws the text from its buffer to scroll, with one it moves the pixels and leaves the buffer as it is. -/

namespace MikanOS

open FrameBufferConfig

/-- `Console`, with the frame buffer that `screen_writer` writes to. -/
structure Console where
  screen : FrameBufferConfig
  screenBytes : Int → UInt8
  window : Option BufferedWindow
  buffer : Nat → Nat → UInt8
  cursorRow : Nat
  cursorColumn : Nat

namespace Console

def kRows : Nat := 25

def kColumns : Nat := 80

/-- The rectangle of a number of rows. -/
def rowsRectangle (row rows : Nat) : Rectangle := ⟨⟨0, 16 * row⟩, ⟨8 * kColumns, 16 * rows⟩⟩

/-- The argument of `GetFont` is a `char`, and is converted to `unsigned int`. -/
def charIndex (c : UInt8) : Nat := if c < 0x80 then c.toNat else 2 ^ 32 - 256 + c.toNat

variable (font : Font) (fgColor bgColor : PixelColor) (s : Console)

/-- `Write` of the writer. -/
def write (p : Vector2D) (c : PixelColor) : Console :=
  match s.window with
  | none => { s with
      screenBytes := storeColor s.screen.pixelFormat s.screenBytes (s.screen.frameAddrAt p) c }
  | some win => { s with window := some (win.write p c) }

def writes (ps : List Vector2D) (c : PixelColor) : Console := ps.foldl (fun s p => s.write p c) s

/-- `FillRectangle` with the background. -/
def fill (r : Rectangle) : Console := s.writes (FillRectangle r.pos r.size) bgColor

/-- `WriteString` of a row of the buffer. Its 81 bytes end it. -/
def writeRow (row : Nat) : Console :=
  s.writes (WriteString font ⟨0, 16 * row⟩ (s.buffer row) (kColumns + 1)) fgColor

/-- A turn of the loop of `Newline`. -/
def shiftRow (row : Nat) : Console :=
  { s with buffer := Function.update s.buffer row (s.buffer (row + 1)) }.writeRow font fgColor row

/-- `Newline`. `none`: a `memcpy` was called for places that overlap. -/
def newline : Option Console :=
  let s := { s with cursorColumn := 0 }
  if s.cursorRow < kRows - 1 then some { s with cursorRow := s.cursorRow + 1 }
  else
    match s.window with
    | some win => (win.move ⟨0, 0⟩ (rowsRectangle 1 (kRows - 1))).map fun win =>
        { s with window := some win }.fill bgColor (rowsRectangle (kRows - 1) 1)
    | none =>
      let s := (List.range (kRows - 1)).foldl (shiftRow font fgColor) (s.fill bgColor (rowsRectangle 0 kRows))
      some { s with buffer := Function.update s.buffer (kRows - 1) fun _ => 0 }

/-- A turn of the loop of `PutString`. -/
def putChar (c : UInt8) : Option Console :=
  if c = 0x0a then s.newline font fgColor bgColor
  else if s.cursorColumn < kColumns - 1 then
    let s := s.writes (WriteAscii font ⟨8 * s.cursorColumn, 16 * s.cursorRow⟩ (charIndex c)) fgColor
    some { s with
      buffer := Function.update s.buffer s.cursorRow (Function.update (s.buffer s.cursorRow) s.cursorColumn c)
      cursorColumn := s.cursorColumn + 1 }
  else some s

/-- `PutString` without the drawing of the layer. -/
def putString (str : List UInt8) : Option Console := str.foldlM (putChar font fgColor bgColor) s

/-- `Refresh`. -/
def refresh : Console :=
  (List.range kRows).foldl (fun s row => s.writeRow font fgColor row) (s.fill bgColor (rowsRectangle 0 kRows))

/-- `SetWindow`, with a window that is not the one in use. -/
def setWindow (win : BufferedWindow) : Console := { s with window := some win }.refresh font fgColor bgColor

/-- `InitializeConsole`. -/
def init (screen : FrameBufferConfig) (screenBytes : Int → UInt8) : Console :=
  Console.refresh font fgColor bgColor ⟨screen, screenBytes, none, fun _ _ => 0, 0, 0⟩

inductive Event where
  | putString (str : List UInt8)
  | setWindow (win : BufferedWindow)

/-- What a call adds to the text. -/
def Event.printed : Event → List UInt8
  | .putString str => str
  | .setWindow _ => []

def Event.isSetWindow : Event → Bool
  | .putString _ => false
  | .setWindow _ => true

def step : Event → Option Console
  | .putString str => s.putString font fgColor bgColor str
  | .setWindow win => some (s.setWindow font fgColor bgColor win)

def system : Transition.System Console Event := ⟨step font fgColor bgColor⟩

/-! ## Pixels -/

/-- The buffer that the writer writes to. -/
def config : FrameBufferConfig :=
  match s.window with
  | none => s.screen
  | some win => win.config

def bytes : Int → UInt8 :=
  match s.window with
  | none => s.screenBytes
  | some win => win.shadowBytes

/-- What is shown at a place. -/
def shown (p : Vector2D) : PixelColor := colorOf s.config.pixelFormat (s.config.pixel s.bytes p)

variable {font fgColor bgColor s} {p q : Vector2D} {c : PixelColor} {ps : List Vector2D}

theorem config_write (p : Vector2D) (c : PixelColor) : (s.write p c).config = s.config := by
  cases h : s.window with
  | none => simp only [write, config, h]
  | some win =>
    simp only [write, config, h]
    rfl

theorem shown_write (hp : s.config.Contains p) (hq : s.config.Contains q) :
    (s.write p c).shown q = if q = p then c else s.shown q := by
  have hbytes : (s.write p c).bytes = storeColor s.config.pixelFormat s.bytes (s.config.frameAddrAt p) c := by
    cases h : s.window with
    | none => simp only [write, bytes, config, h]
    | some win =>
      simp only [write, bytes, config, h]
      rfl
  rw [shown, shown, config_write, hbytes]
  split
  · rename_i heq
    rw [heq, BufferedWindow.colorOf_storeColor]
  · rename_i hne
    rw [BufferedWindow.pixel_storeColor_of_ne _ hp hq hne]

/-- Pixels may have been drawn, and nothing else has changed. -/
structure Redrawn (s s' : Console) : Prop where
  config : s'.config = s.config
  buffer : s'.buffer = s.buffer
  cursorRow : s'.cursorRow = s.cursorRow
  cursorColumn : s'.cursorColumn = s.cursorColumn
  window : s'.window.isSome = s.window.isSome

theorem Redrawn.refl (s : Console) : s.Redrawn s := ⟨rfl, rfl, rfl, rfl, rfl⟩

theorem Redrawn.trans {s' s'' : Console} (h : s.Redrawn s') (h' : s'.Redrawn s'') : s.Redrawn s'' :=
  ⟨h'.config.trans h.config, h'.buffer.trans h.buffer, h'.cursorRow.trans h.cursorRow,
    h'.cursorColumn.trans h.cursorColumn, h'.window.trans h.window⟩

theorem redrawn_write (p : Vector2D) (c : PixelColor) : s.Redrawn (s.write p c) := by
  refine ⟨config_write p c, ?_, ?_, ?_, ?_⟩
  all_goals
    simp only [write]
    split <;> rename_i h <;> simp [h]

theorem redrawn_writes (ps : List Vector2D) (c : PixelColor) : s.Redrawn (s.writes ps c) := by
  induction ps generalizing s with
  | nil => exact .refl s
  | cons p ps ih => exact (redrawn_write p c).trans ih

theorem redrawn_fill (r : Rectangle) : s.Redrawn (s.fill bgColor r) := redrawn_writes ..

theorem redrawn_writeRow (row : Nat) : s.Redrawn (s.writeRow font fgColor row) := redrawn_writes ..

theorem shown_writes (hps : ∀ p ∈ ps, s.config.Contains p) (hq : s.config.Contains q) :
    (s.writes ps c).shown q = if q ∈ ps then c else s.shown q := by
  induction ps generalizing s with
  | nil => simp [writes]
  | cons p ps ih =>
    obtain ⟨hp, hps⟩ := List.forall_mem_cons.mp hps
    have hconf := @config_write s p c
    have hrest : ((s.write p c).writes ps c).shown q = if q ∈ ps then c else (s.write p c).shown q :=
      ih (fun p' hp' => hconf ▸ hps p' hp') (hconf ▸ hq)
    refine hrest.trans ?_
    rw [shown_write hp hq]
    by_cases h : q ∈ ps <;> by_cases heq : q = p <;> simp [h, heq]

/-! ## What the drawing functions write -/

/-- A position in the area of the text. -/
def InText (p : Vector2D) : Prop := (0 ≤ p.x ∧ p.x < 8 * kColumns) ∧ 0 ≤ p.y ∧ p.y < 16 * kRows

theorem mem_fill {r : Rectangle} (hx : 0 ≤ r.pos.x ∧ r.pos.x + r.size.x < 2 ^ 31)
    (hy : 0 ≤ r.pos.y ∧ r.pos.y + r.size.y < 2 ^ 31) : p ∈ FillRectangle r.pos r.size ↔ p ∈ r := by
  simp only [FillRectangle, List.mem_flatMap, List.mem_map, List.mem_range, Rectangle.mem_def]
  constructor
  · rintro ⟨dy, hdy, dx, hdx, rfl⟩
    simp only [Vector2D.add_x, Vector2D.add_y]
    rw [wrap32_of_range (by omega) (by omega), wrap32_of_range (by omega) (by omega)]
    omega
  · rintro ⟨⟨hleft, hright⟩, htop, hbottom⟩
    refine ⟨(p.y - r.pos.y).toNat, by omega, (p.x - r.pos.x).toNat, by omega, Vector2D.ext ?_ ?_⟩
    · rw [Vector2D.add_x, wrap32_of_range] <;> dsimp only <;> omega
    · rw [Vector2D.add_y, wrap32_of_range] <;> dsimp only <;> omega

/-- The pixel of a character of the linked font. -/
def inked (font : Font) (index dx dy : Nat) : Bool :=
  (font.GetFont index).any fun bitmap => ((bitmap dy).toNat <<< dx) &&& 0x80 ≠ 0

/-- The pixel `(dx, dy)` of a cell. -/
def pixelAt (row column dx dy : Nat) : Vector2D := ⟨8 * column + dx, 16 * row + dy⟩

theorem pixelAt_inj {row column dx dy row' column' dx' dy' : Nat} (hdx : dx < 8) (hdy : dy < 16) (hdx' : dx' < 8)
    (hdy' : dy' < 16) (h : pixelAt row column dx dy = pixelAt row' column' dx' dy') :
    row = row' ∧ column = column' ∧ dx = dx' ∧ dy = dy' := by
  have hx := congrArg Vector2D.x h
  have hy := congrArg Vector2D.y h
  simp only [pixelAt] at hx hy
  omega

theorem inText_pixelAt {row column dx dy : Nat} (hrow : row < kRows) (hcolumn : column < kColumns) (hdx : dx < 8)
    (hdy : dy < 16) : InText (pixelAt row column dx dy) := by
  simp only [InText, pixelAt]
  omega

theorem mem_writeAscii {row column index : Nat} (hrow : row < kRows) (hcolumn : column < kColumns) :
    p ∈ WriteAscii font ⟨8 * column, 16 * row⟩ index ↔
      ∃ dx < 8, ∃ dy < 16, inked font index dx dy = true ∧ p = pixelAt row column dx dy := by
  have hadd : ∀ dx dy : Nat, dx < 8 → dy < 16 →
      (⟨8 * (column : Int), 16 * (row : Int)⟩ : Vector2D) + ⟨dx, dy⟩ = pixelAt row column dx dy := by
    intro dx dy hdx hdy
    simp only [kRows, kColumns] at hrow hcolumn
    refine Vector2D.ext ?_ ?_
    · rw [Vector2D.add_x, wrap32_of_range (by dsimp only; omega) (by dsimp only; omega)]
      rfl
    · rw [Vector2D.add_y, wrap32_of_range (by dsimp only; omega) (by dsimp only; omega)]
      rfl
  rw [WriteAscii]
  cases hfont : font.GetFont index with
  | none => simp [inked, hfont]
  | some bitmap =>
    simp only [asciiPixels, List.mem_map, List.mem_flatMap, List.mem_filter, List.mem_range, inked, hfont,
      Option.any_some]
    constructor
    · rintro ⟨_, ⟨dy, hdy, dx, ⟨hdx, hink⟩, rfl⟩, rfl⟩
      exact ⟨dx, hdx, dy, hdy, hink, hadd dx dy hdx hdy⟩
    · rintro ⟨dx, hdx, dy, hdy, hink, rfl⟩
      exact ⟨_, ⟨dy, hdy, dx, ⟨hdx, hink⟩, rfl⟩, hadd dx dy hdx hdy⟩

/-- The bytes of a row with `n` characters of 7 bits. -/
structure RowText (str : Nat → UInt8) (n : Nat) : Prop where
  ascii : ∀ k < n, str k ≠ 0 ∧ str k < 0x80
  ends : str n = 0

theorem mem_textCells {str : Nat → UInt8} {n : Nat} (h : RowText str n) (hn : n < kColumns) {turns i : Nat}
    (hi : i ≤ n) (hturns : n < turns + i) {cell : Int × Nat} :
    cell ∈ textCells str turns i i ↔ ∃ k, i ≤ k ∧ k < n ∧ cell = (↑k, (str k).toNat) := by
  induction turns generalizing i with
  | zero => omega
  | succ turns ih =>
    rw [textCells]
    rcases Nat.eq_or_lt_of_le hi with rfl | hlt
    · rw [if_pos h.ends]
      constructor
      · intro hmem
        exact absurd hmem List.not_mem_nil
      · rintro ⟨k, hik, hki, -⟩
        omega
    · obtain ⟨hne, hascii⟩ := h.ascii i hlt
      have hconvert : ConvertUTF8To32 (fun k => str (i + k)) = ((str i).toNat, 1) := by
        have hsize : CountUTF8Size (str (i + 0)) = 1 := if_pos hascii
        simp only [ConvertUTF8To32, hsize]
        rfl
      have hhankaku : IsHankaku (str i).toNat := by
        rw [IsHankaku]
        have := UInt8.lt_iff_toNat_lt.mp hascii
        change _ < 0x80 at this
        omega
      have hwrap : wrap32 ((i : Int) + 1) = ((i + 1 : Nat) : Int) := by
        simp only [kColumns] at hn
        rw [wrap32_of_range] <;> push_cast <;> omega
      simp only [if_neg hne, hconvert, if_pos hhankaku, hwrap, List.mem_cons, ih hlt (by omega)]
      constructor
      · rintro (rfl | ⟨k, hik, hkn, rfl⟩)
        · exact ⟨i, le_rfl, hlt, rfl⟩
        · exact ⟨k, by omega, hkn, rfl⟩
      · rintro ⟨k, hik, hkn, rfl⟩
        rcases Nat.eq_or_lt_of_le hik with rfl | hik
        · exact .inl rfl
        · exact .inr ⟨k, hik, hkn, rfl⟩

theorem mem_writeString {str : Nat → UInt8} {n row : Nat} (h : RowText str n) (hn : n < kColumns)
    (hrow : row < kRows) : p ∈ WriteString font ⟨0, 16 * row⟩ str (kColumns + 1) ↔
      ∃ k < n, ∃ dx < 8, ∃ dy < 16, inked font (charIndex (str k)) dx dy = true ∧ p = pixelAt row k dx dy := by
  have hcells : ∀ cell, cell ∈ textCells str (kColumns + 1) 0 0 ↔ ∃ k < n, cell = (↑k, (str k).toNat) := by
    intro cell
    refine (mem_textCells h hn (i := 0) (Nat.zero_le n) (by omega)).trans ?_
    simp
  have hcell : ∀ k < n, ∀ p, p ∈ WriteUnicode font (⟨0, 16 * row⟩ + ⟨wrap32 (8 * (k : Int)), 0⟩) (str k).toNat ↔
      ∃ dx < 8, ∃ dy < 16, inked font (charIndex (str k)) dx dy = true ∧ p = pixelAt row k dx dy := by
    intro k hk p
    have hascii := (h.ascii k hk).2
    have hindex : charIndex (str k) = (str k).toNat := if_pos hascii
    have hle : (str k).toNat ≤ 0x7f := by
      have := UInt8.lt_iff_toNat_lt.mp hascii
      change _ < 0x80 at this
      omega
    have hpos : (⟨0, 16 * (row : Int)⟩ : Vector2D) + ⟨wrap32 (8 * (k : Int)), 0⟩ = ⟨8 * k, 16 * row⟩ := by
      simp only [kRows, kColumns] at hrow hn
      refine Vector2D.ext ?_ ?_
      · rw [Vector2D.add_x, wrap32_of_range (v := 8 * (k : Int)) (by omega) (by omega), wrap32_of_range] <;>
          dsimp only <;> omega
      · rw [Vector2D.add_y, wrap32_of_range] <;> dsimp only <;> omega
    rw [WriteUnicode, if_pos hle, hpos, hindex]
    exact mem_writeAscii hrow (hk.trans hn)
  simp only [WriteString, List.mem_flatMap, hcells]
  constructor
  · rintro ⟨_, ⟨k, hk, rfl⟩, hp⟩
    exact ⟨k, hk, (hcell k hk p).mp hp⟩
  · rintro ⟨k, hk, hp⟩
    exact ⟨_, ⟨k, hk, rfl⟩, (hcell k hk p).mpr hp⟩

/-! ## Characters on the screen -/

/-- The characters of a row: 7 bits each, without a gap, and none in the last column. -/
structure RowCells (cells : Nat → Option UInt8) : Prop where
  ascii : ∀ k c, cells k = some c → c ≠ 0 ∧ c < 0x80
  gapless : ∀ k k', cells k = none → k ≤ k' → cells k' = none
  short : cells (kColumns - 1) = none

def cellInked (font : Font) (c : Option UInt8) (dx dy : Nat) : Bool := c.any fun c => inked font (charIndex c) dx dy

/-- A console with the characters `cells` on a part of its rows, and the background on the others. -/
def Shows (font : Font) (fgColor bgColor : PixelColor) (s : Console) (cells : Nat → Nat → Option UInt8) : Prop :=
  ∀ row < kRows, ∀ column < kColumns, ∀ dx < 8, ∀ dy < 16, s.shown (pixelAt row column dx dy) =
    if cellInked font (cells row column) dx dy then fgColor else bgColor

/-- The area of the text is inside of the buffer that is written to. -/
def Sized (s : Console) : Prop := ∀ p, InText p → s.config.Contains p

variable {cells : Nat → Option UInt8} {row column dx dy : Nat}

theorem RowCells.rowText (h : RowCells cells) {str : Nat → UInt8} (hstr : ∀ k, str k = (cells k).getD 0) :
    ∃ n < kColumns, RowText str n ∧ ∀ k, k < n ↔ cells k ≠ none := by
  classical
  have hex : ∃ k, cells k = none := ⟨_, h.short⟩
  refine ⟨Nat.find hex, ?_, ⟨fun k hk => ?_, ?_⟩, fun k => ⟨fun hk => Nat.find_min hex hk, fun hk => ?_⟩⟩
  · have := Nat.find_min' hex h.short
    simp only [kColumns] at *
    omega
  · obtain ⟨c, hc⟩ := Option.ne_none_iff_exists'.mp (Nat.find_min hex hk)
    rw [hstr, hc]
    exact h.ascii k c hc
  · rw [hstr, Nat.find_spec hex]
    rfl
  · exact Nat.not_le.mp fun hle => hk (h.gapless _ _ (Nat.find_spec hex) hle)

theorem shown_writeRow (hs : s.Sized) (hrow : row < kRows) (h : RowCells cells)
    (hbuffer : ∀ k, s.buffer row k = (cells k).getD 0) {row' : Nat} (hrow' : row' < kRows)
    (hcolumn : column < kColumns) (hdx : dx < 8) (hdy : dy < 16) :
    (s.writeRow font fgColor row).shown (pixelAt row' column dx dy) =
      if row' = row ∧ cellInked font (cells column) dx dy then fgColor
      else s.shown (pixelAt row' column dx dy) := by
  obtain ⟨n, hn, htext, hcells⟩ := h.rowText hbuffer
  have hmem := fun p => @mem_writeString font p _ n row htext hn hrow
  rw [writeRow, shown_writes (fun p hp => ?_) (hs _ (inText_pixelAt hrow' hcolumn hdx hdy))]
  · congr 1
    rw [hmem, eq_iff_iff]
    constructor
    · rintro ⟨k, hk, dx', hdx', dy', hdy', hink, heq⟩
      obtain ⟨rfl, rfl, rfl, rfl⟩ := pixelAt_inj hdx hdy hdx' hdy' heq
      obtain ⟨c, hc⟩ := Option.ne_none_iff_exists'.mp ((hcells column).mp hk)
      rw [hbuffer, hc] at hink
      exact ⟨rfl, by rw [cellInked, hc]; exact hink⟩
    · rintro ⟨rfl, hink⟩
      cases hc : cells column with
      | none =>
        rw [cellInked, hc] at hink
        cases hink
      | some c =>
        refine ⟨column, (hcells column).mpr (by simp [hc]), dx, hdx, dy, hdy, ?_, rfl⟩
        rw [cellInked, hc] at hink
        rw [hbuffer, hc]
        exact hink
  · obtain ⟨k, hk, dx', hdx', dy', hdy', -, rfl⟩ := (hmem p).mp hp
    exact hs _ (inText_pixelAt hrow (hk.trans hn) hdx' hdy')

theorem Sized.of_config {s' : Console} (h : s.Sized) (hconfig : s'.config = s.config) : s'.Sized :=
  fun p hp => hconfig ▸ h p hp

theorem Redrawn.sized {s' : Console} (h : s.Redrawn s') (hs : s.Sized) : s'.Sized := hs.of_config h.config

theorem shown_fill (hs : s.Sized) {rows row' : Nat} (hrows : row + rows ≤ kRows) (hrow' : row' < kRows)
    (hcolumn : column < kColumns) (hdx : dx < 8) (hdy : dy < 16) :
    (s.fill bgColor (rowsRectangle row rows)).shown (pixelAt row' column dx dy) =
      if row ≤ row' ∧ row' < row + rows then bgColor else s.shown (pixelAt row' column dx dy) := by
  simp only [kRows, kColumns] at *
  have hmem : ∀ p, p ∈ FillRectangle (rowsRectangle row rows).pos (rowsRectangle row rows).size ↔
      p ∈ rowsRectangle row rows := fun p => mem_fill (by simp only [rowsRectangle, kColumns]; omega)
        (by simp only [rowsRectangle]; omega)
  rw [fill, shown_writes (fun p hp => hs p ?_) (hs _ (inText_pixelAt hrow' hcolumn hdx hdy))]
  · congr 1
    rw [hmem, eq_iff_iff]
    simp only [Rectangle.mem_def, rowsRectangle, pixelAt, kColumns]
    omega
  · have hp := (hmem p).mp hp
    simp only [Rectangle.mem_def, rowsRectangle, kColumns] at hp
    simp only [InText, kRows, kColumns]
    omega

/-! ## Redrawing -/

/-- The buffer has the characters of each row, with zeros behind them. -/
def Buffers (s : Console) (cells : Nat → Nat → Option UInt8) : Prop :=
  ∀ row < kRows, ∀ k, s.buffer row k = (cells row k).getD 0

variable {text : Nat → Nat → Option UInt8}

/-- The first `n` rows are drawn. -/
structure DrawnRows (font : Font) (fgColor bgColor : PixelColor) (s : Console) (text : Nat → Nat → Option UInt8)
    (n : Nat) : Prop where
  rows : ∀ row < n, ∀ column < kColumns, ∀ dx < 8, ∀ dy < 16, s.shown (pixelAt row column dx dy) =
    if cellInked font (text row column) dx dy then fgColor else bgColor
  rest : ∀ row < kRows, n ≤ row → ∀ column < kColumns, ∀ dx < 8, ∀ dy < 16,
    s.shown (pixelAt row column dx dy) = bgColor

theorem drawnRows_fill (hs : s.Sized) :
    DrawnRows font fgColor bgColor (s.fill bgColor (rowsRectangle 0 kRows)) text 0 where
  rows := fun _ h => absurd h (Nat.not_lt_zero _)
  rest := fun row hrow _ column hcolumn dx hdx dy hdy => by
    rw [shown_fill hs (by omega) hrow hcolumn hdx hdy, if_pos (by omega)]

theorem DrawnRows.writeRow {n : Nat} (H : DrawnRows font fgColor bgColor s text n) (hs : s.Sized) (hn : n < kRows)
    (h : RowCells (text n)) (hbuffer : ∀ k, s.buffer n k = (text n k).getD 0) :
    DrawnRows font fgColor bgColor (s.writeRow font fgColor n) text (n + 1) where
  rows := fun row hrow column hcolumn dx hdx dy hdy => by
    rw [shown_writeRow hs hn h hbuffer (by omega) hcolumn hdx hdy]
    rcases Nat.eq_or_lt_of_le (Nat.le_of_lt_succ hrow) with rfl | hlt
    · rw [H.rest row hn le_rfl column hcolumn dx hdx dy hdy]
      simp
    · rw [if_neg (by omega), H.rows row hlt column hcolumn dx hdx dy hdy]
  rest := fun row hrow hle column hcolumn dx hdx dy hdy => by
    rw [shown_writeRow hs hn h hbuffer hrow hcolumn hdx hdy, if_neg (by omega)]
    exact H.rest row hrow (by omega) column hcolumn dx hdx dy hdy

/-- `Refresh` draws what is in the buffer. -/
theorem refresh_spec (hs : s.Sized) (htext : ∀ row < kRows, RowCells (text row)) (hbuffers : s.Buffers text) :
    s.Redrawn (s.refresh font fgColor bgColor) ∧
      Shows font fgColor bgColor (s.refresh font fgColor bgColor) text := by
  have hloop : ∀ n ≤ kRows, ∃ t, (List.range n).foldl (fun s row => s.writeRow font fgColor row)
      (s.fill bgColor (rowsRectangle 0 kRows)) = t ∧ s.Redrawn t ∧ DrawnRows font fgColor bgColor t text n := by
    intro n hn
    induction n with
    | zero =>
      rw [List.range_zero, List.foldl_nil]
      exact ⟨_, rfl, redrawn_fill _, drawnRows_fill hs⟩
    | succ n ih =>
      obtain ⟨t, ht, hredrawn, hdrawn⟩ := ih (by omega)
      rw [List.range_succ, List.foldl_append, ht, List.foldl_cons, List.foldl_nil]
      refine ⟨_, rfl, hredrawn.trans (redrawn_writeRow n), ?_⟩
      exact hdrawn.writeRow (hredrawn.sized hs) hn (htext n hn) fun k => by rw [hredrawn.buffer, hbuffers n hn]
  obtain ⟨t, ht, hredrawn, hdrawn⟩ := hloop kRows le_rfl
  rw [refresh, ht]
  exact ⟨hredrawn, hdrawn.rows⟩

/-- The loop of `Newline` draws each row as it was below. -/
theorem shiftRows_spec (hs : s.Sized) (htext : ∀ row < kRows, RowCells (text row)) (hbuffers : s.Buffers text)
    {n : Nat} (hn : n < kRows) :
    ∃ t, (List.range n).foldl (shiftRow font fgColor) (s.fill bgColor (rowsRectangle 0 kRows)) = t ∧
      t.config = s.config ∧ t.cursorRow = s.cursorRow ∧ t.cursorColumn = s.cursorColumn ∧
      t.window.isSome = s.window.isSome ∧
      (∀ row, t.buffer row = if row < n then s.buffer (row + 1) else s.buffer row) ∧
      DrawnRows font fgColor bgColor t (fun row => text (row + 1)) n := by
  induction n with
  | zero =>
    have h : s.Redrawn (s.fill bgColor (rowsRectangle 0 kRows)) := redrawn_fill _
    rw [List.range_zero, List.foldl_nil]
    refine ⟨_, rfl, h.config, h.cursorRow, h.cursorColumn, h.window, fun row => ?_, drawnRows_fill hs⟩
    rw [if_neg (Nat.not_lt_zero _)]
    exact congrFun h.buffer row
  | succ n ih =>
    obtain ⟨t, ht, hconfig, hrow, hcolumn, hwindow, hbuffer, hdrawn⟩ := ih (by omega)
    rw [List.range_succ, List.foldl_append, ht, List.foldl_cons, List.foldl_nil]
    let t' : Console := { t with buffer := Function.update t.buffer n (t.buffer (n + 1)) }
    have hnext : t.buffer (n + 1) = s.buffer (n + 1) := by rw [hbuffer, if_neg (by omega)]
    have ht' : DrawnRows font fgColor bgColor t' (fun row => text (row + 1)) n := ⟨hdrawn.rows, hdrawn.rest⟩
    have hsized : t'.Sized := hs.of_config hconfig
    have hrest : t'.Redrawn (t'.writeRow font fgColor n) := redrawn_writeRow n
    refine ⟨_, rfl, hrest.config.trans hconfig, hrest.cursorRow.trans hrow, hrest.cursorColumn.trans hcolumn,
      hrest.window.trans hwindow, fun row => ?_, ?_⟩
    · refine (congrFun hrest.buffer row).trans ?_
      show Function.update t.buffer n (t.buffer (n + 1)) row = _
      by_cases heq : row = n
      · rw [heq, Function.update_self, if_pos (Nat.lt_succ_self n), hnext]
      · rw [Function.update_of_ne heq, hbuffer]
        by_cases hlt : row < n
        · rw [if_pos hlt, if_pos (by omega)]
        · rw [if_neg hlt, if_neg (by omega)]
    · refine ht'.writeRow hsized (by omega) (htext (n + 1) hn) fun k => ?_
      show Function.update t.buffer n (t.buffer (n + 1)) n k = _
      rw [Function.update_self, hnext, hbuffers (n + 1) hn]

/-! ## Scrolling -/

/-- What `Newline` does in the last row: the rows are shown one higher, and the last one is empty. -/
structure Scrolled (font : Font) (fgColor bgColor : PixelColor) (s s' : Console)
    (text : Nat → Nat → Option UInt8) : Prop where
  config : s'.config = s.config
  cursorRow : s'.cursorRow = s.cursorRow
  cursorColumn : s'.cursorColumn = 0
  window : s'.window.isSome = s.window.isSome
  buffers : s'.window = none → s'.Buffers fun row => text (row + 1)
  shows : Shows font fgColor bgColor s' fun row => text (row + 1)

theorem Sized.inside (hs : s.Sized) {row rows : Nat} (hrows : row + rows ≤ kRows) :
    s.config.Inside (rowsRectangle row rows) := by
  have hcorner := hs (pixelAt 24 79 7 15) (inText_pixelAt (by decide) (by decide) (by decide) (by decide))
  simp only [Contains, pixelAt] at hcorner
  simp only [kRows] at hrows
  constructor <;> simp only [rowsRectangle, kColumns] <;> omega

theorem last_or_lt {row : Nat} (h : row < kRows) : row = kRows - 1 ∨ row < kRows - 1 := by omega

/-- Without a window, the text is redrawn. -/
theorem newline_redraw (hs : s.Sized) (htext : ∀ row < kRows, RowCells (text row))
    (hend : ∀ column, text kRows column = none) (hbuffers : s.Buffers text) (hwindow : s.window = none)
    (hlast : s.cursorRow = kRows - 1) :
    ∃ s', s.newline font fgColor bgColor = some s' ∧ Scrolled font fgColor bgColor s s' text := by
  let s₀ : Console := { s with cursorColumn := 0 }
  obtain ⟨t, ht, hconfig, hrow, hcolumn, hnone, hbuffer, hdrawn⟩ :=
    @shiftRows_spec font fgColor bgColor s₀ text (hs.of_config rfl) htext hbuffers (kRows - 1) (by decide)
  let t' : Console := { t with buffer := Function.update t.buffer (kRows - 1) fun _ => 0 }
  have hnewline : s.newline font fgColor bgColor = some t' := by
    rw [newline]
    dsimp only
    rw [if_neg (by omega)]
    split
    · next win h => cases hwindow.symm.trans h
    · exact congrArg (fun t => some { t with buffer := Function.update t.buffer (kRows - 1) fun _ => 0 }) ht
  refine ⟨t', hnewline, ⟨hconfig, hrow, hcolumn, hnone, fun _ row hrow' k => ?_, ?_⟩⟩
  · show Function.update t.buffer (kRows - 1) (fun _ => 0) row k = _
    rcases last_or_lt hrow' with rfl | hlt
    · rw [Function.update_self]
      exact (congrArg (·.getD 0) (hend k)).symm
    · rw [Function.update_of_ne hlt.ne, hbuffer, if_pos hlt]
      exact hbuffers (row + 1) (by omega) k
  · intro row hrow' column hcolumn' dx hdx dy hdy
    refine Eq.trans (b := t.shown (pixelAt row column dx dy)) rfl ?_
    rcases last_or_lt hrow' with rfl | hlt
    · rw [hdrawn.rest _ hrow' le_rfl column hcolumn' dx hdx dy hdy, if_neg]
      show ¬cellInked font (text kRows column) dx dy = true
      rw [hend column]
      exact Bool.false_ne_true
    · exact hdrawn.rows row hlt column hcolumn' dx hdx dy hdy

/-- With a window, its picture is moved. -/
theorem newline_move (hs : s.Sized) (hshows : Shows font fgColor bgColor s text)
    (hend : ∀ column, text kRows column = none) {win : BufferedWindow} (hwindow : s.window = some win)
    (hlast : s.cursorRow = kRows - 1) :
    ∃ s', s.newline font fgColor bgColor = some s' ∧ Scrolled font fgColor bgColor s s' text := by
  have hwin : s.config = win.config := by rw [config, hwindow]
  have hsrc : win.config.Inside (rowsRectangle 1 (kRows - 1)) := hwin ▸ hs.inside (by decide)
  have hdst : win.config.Inside ⟨⟨0, 0⟩, (rowsRectangle 1 (kRows - 1)).size⟩ :=
    hwin ▸ @Sized.inside s hs 0 (kRows - 1) (by decide)
  obtain ⟨bytes, hmove, hmoved⟩ := move_of_rowsApart win.shadowBytes hsrc hdst (.inr (.inl (by decide)))
  let win' : BufferedWindow := { win with shadowBytes := bytes }
  let t : Console := { s with cursorColumn := 0, window := some win' }
  have hnewline : s.newline font fgColor bgColor = some (t.fill bgColor (rowsRectangle (kRows - 1) 1)) := by
    rw [newline]
    dsimp only
    rw [if_neg (by omega)]
    split
    · next win₀ h =>
      obtain rfl := Option.some.inj (hwindow.symm.trans h)
      rw [BufferedWindow.move, hmove]
      rfl
    · next h => cases hwindow.symm.trans h
  have hconfig : t.config = s.config := hwin.symm
  have hfill : t.Redrawn (t.fill bgColor (rowsRectangle (kRows - 1) 1)) := redrawn_fill _
  have hsized : t.Sized := hs.of_config hconfig
  refine ⟨_, hnewline, ⟨hfill.config.trans hconfig, hfill.cursorRow, hfill.cursorColumn, ?_, fun hnone => ?_, ?_⟩⟩
  · rw [hfill.window, hwindow]
    rfl
  · have := hfill.window
    rw [hnone] at this
    cases this
  · intro row hrow column hcolumn dx hdx dy hdy
    rw [shown_fill hsized le_rfl hrow hcolumn hdx hdy]
    rcases last_or_lt hrow with rfl | hlt
    · rw [if_pos (by decide), if_neg]
      show ¬cellInked font (text kRows column) dx dy = true
      rw [hend column]
      exact Bool.false_ne_true
    · rw [if_neg (by omega)]
      have hmem : pixelAt row column dx dy ∈ (⟨⟨0, 0⟩, (rowsRectangle 1 (kRows - 1)).size⟩ : Rectangle) := by
        simp only [kRows, kColumns] at hlt hcolumn
        simp only [Rectangle.mem_def, rowsRectangle, pixelAt, kRows, kColumns]
        omega
      have hbelow : (⟨(rowsRectangle 1 (kRows - 1)).pos.x + ((pixelAt row column dx dy).x - 0),
          (rowsRectangle 1 (kRows - 1)).pos.y + ((pixelAt row column dx dy).y - 0)⟩ : Vector2D) =
            pixelAt (row + 1) column dx dy := by
        refine Vector2D.ext ?_ ?_
        · simp [rowsRectangle, pixelAt]
        · simp only [rowsRectangle, pixelAt]
          push_cast
          ring
      have hin : win.config.Contains (pixelAt row column dx dy) := hwin ▸ hs _ (inText_pixelAt hrow hcolumn hdx hdy)
      have hmovedTo := (BufferedWindow.shadow_of_moved hmoved hin).trans (if_pos hmem)
      rw [hbelow] at hmovedTo
      have hold : s.shown (pixelAt (row + 1) column dx dy) = win.shadow (pixelAt (row + 1) column dx dy) := by
        rw [shown, config, Console.bytes, hwindow]
        rfl
      refine Eq.trans (b := win'.shadow (pixelAt row column dx dy)) rfl (hmovedTo.trans (hold.symm.trans ?_))
      exact hshows (row + 1) (by omega) column hcolumn dx hdx dy hdy

/-! ## The text -/

/-- The character of the text in a row and a column. The last column stays empty. -/
def cellOf (text : List UInt8) (row column : Nat) : Option UInt8 :=
  TextScreen.cell 0x0a kRows (kColumns - 1) text row column

/-- The characters of a text of 7 bits. -/
def IsAscii (text : List UInt8) : Prop := ∀ c ∈ text, c ≠ 0 ∧ c < 0x80

/-- The console shows the text, and the cursor is behind it. -/
structure Inv (font : Font) (fgColor bgColor : PixelColor) (text : List UInt8) (s : Console) : Prop where
  sized : s.Sized
  cursorRow : s.cursorRow = TextScreen.cursorRow 0x0a kRows text
  cursorColumn : s.cursorColumn = TextScreen.cursorColumn 0x0a (kColumns - 1) text
  buffers : s.window = none → s.Buffers (cellOf text)
  shows : Shows font fgColor bgColor s (cellOf text)

variable {printed : List UInt8} {b : UInt8}

theorem rowCells_cellOf (h : IsAscii printed) (row : Nat) : RowCells (cellOf printed row) where
  ascii := fun _ c hc => h c (TextScreen.mem_of_cell (by decide) hc).1
  gapless := fun _ _ hk hle => TextScreen.cell_none_of_le hk hle
  short := by
    rw [cellOf, TextScreen.cell]
    exact if_neg (lt_irrefl _)

theorem cellOf_end (column : Nat) : cellOf printed kRows column = none := by
  have hlen := @TextScreen.length_visible _ _ 0x0a printed kRows
  rw [cellOf, TextScreen.cell, List.getElem?_eq_none (by omega)]
  exact ite_self _

theorem Inv.newline (H : Inv font fgColor bgColor printed s) (h : IsAscii printed) :
    ∃ s', s.newline font fgColor bgColor = some s' ∧ s'.window.isSome = s.window.isSome ∧
      Inv font fgColor bgColor (printed ++ [0x0a]) s' := by
  have hpos := @TextScreen.splitOn_length_pos _ _ 0x0a printed
  have hrow := H.cursorRow
  have hnext := @TextScreen.cursorRow_sep _ _ 0x0a printed kRows
  rw [TextScreen.cursorRow_eq] at hrow
  rcases Nat.lt_or_ge (printed.splitOn 0x0a).length kRows with hlt | hge
  · have hcells : cellOf (printed ++ [0x0a]) = cellOf printed := by
      funext row column
      exact TextScreen.cell_sep_of_lt hlt row column
    refine ⟨{ s with cursorColumn := 0, cursorRow := s.cursorRow + 1 }, ?_, rfl,
      ⟨H.sized.of_config rfl, ?_, ?_, ?_, ?_⟩⟩
    · rw [Console.newline]
      exact if_pos (by dsimp only; omega)
    · rw [hnext, if_pos hlt, ← H.cursorRow]
    · exact TextScreen.cursorColumn_sep.symm
    · exact hcells ▸ H.buffers
    · exact hcells ▸ H.shows
  · have hcells : cellOf (printed ++ [0x0a]) = fun row => cellOf printed (row + 1) := by
      funext row column
      exact TextScreen.cell_sep_of_le hge (by decide) row column
    have hlast : s.cursorRow = kRows - 1 := by omega
    obtain ⟨s', hs', hscrolled⟩ :
        ∃ s', s.newline font fgColor bgColor = some s' ∧ Scrolled font fgColor bgColor s s' (cellOf printed) := by
      cases hwindow : s.window with
      | none =>
        exact newline_redraw H.sized (fun row _ => rowCells_cellOf h row) cellOf_end (H.buffers hwindow) hwindow
          hlast
      | some win => exact newline_move H.sized H.shows cellOf_end hwindow hlast
    refine ⟨s', hs', hscrolled.window, ⟨H.sized.of_config hscrolled.config, ?_, ?_, ?_, ?_⟩⟩
    · rw [hscrolled.cursorRow, hlast, hnext, if_neg (by omega)]
    · exact hscrolled.cursorColumn.trans TextScreen.cursorColumn_sep.symm
    · exact hcells ▸ hscrolled.buffers
    · exact hcells ▸ hscrolled.shows

/-- A character at the cursor. -/
theorem Inv.write (H : Inv font fgColor bgColor printed s) (hb : b ≠ 0x0a)
    (hcolumn : s.cursorColumn < kColumns - 1) : ∃ s', s.putChar font fgColor bgColor b = some s' ∧
      s'.window.isSome = s.window.isSome ∧ Inv font fgColor bgColor (printed ++ [b]) s' := by
  have hrow : s.cursorRow < kRows := H.cursorRow ▸ TextScreen.cursorRow_lt (by decide)
  have hcells : ∀ row column, cellOf (printed ++ [b]) row column =
      if row = s.cursorRow ∧ column = s.cursorColumn then some b else cellOf printed row column := by
    intro row column
    rw [cellOf, TextScreen.cell_concat hb (by decide), ← H.cursorRow, ← H.cursorColumn]
    by_cases hat : row = s.cursorRow ∧ column = s.cursorColumn
    · rw [if_pos ⟨hat.1, hat.2, hat.2 ▸ hcolumn⟩, if_pos hat]
    · rw [if_neg fun h => hat ⟨h.1, h.2.1⟩, if_neg hat]
      rfl
  have hempty : cellOf printed s.cursorRow s.cursorColumn = none := by
    rw [H.cursorRow]
    exact TextScreen.cell_cursor (by decide) H.cursorColumn.ge
  let t := s.writes (WriteAscii font ⟨8 * s.cursorColumn, 16 * s.cursorRow⟩ (charIndex b)) fgColor
  have ht : s.Redrawn t := redrawn_writes ..
  have hmem := fun p => @mem_writeAscii font p s.cursorRow s.cursorColumn (charIndex b) hrow (by omega)
  refine ⟨{ t with
      buffer := Function.update t.buffer t.cursorRow (Function.update (t.buffer t.cursorRow) t.cursorColumn b)
      cursorColumn := t.cursorColumn + 1 }, ?_, ht.window, ⟨(ht.sized H.sized).of_config rfl, ?_, ?_, ?_, ?_⟩⟩
  · rw [putChar, if_neg hb, if_pos hcolumn]
  · rw [TextScreen.cursorRow_concat hb, ← H.cursorRow]
    exact ht.cursorRow
  · rw [TextScreen.cursorColumn_concat hb, ← H.cursorColumn, if_pos hcolumn]
    exact congrArg (· + 1) ht.cursorColumn
  · intro hwindow row hrow' k
    have hnone : s.window = none := by
      have := ht.window
      rw [hwindow] at this
      exact Option.isNone_iff_eq_none.mp (by simpa using this.symm)
    have hbuffer := H.buffers hnone row hrow' k
    dsimp only
    rw [hcells, ht.buffer, ht.cursorRow, ht.cursorColumn]
    by_cases hat : row = s.cursorRow
    · subst hat
      rw [Function.update_self]
      by_cases hk : k = s.cursorColumn
      · rw [hk, Function.update_self, if_pos ⟨rfl, rfl⟩]
        rfl
      · rw [Function.update_of_ne hk, if_neg fun h => hk h.2, hbuffer]
    · rw [Function.update_of_ne hat, if_neg fun h => hat h.1, hbuffer]
  · intro row hrow' column hcolumn' dx hdx dy hdy
    have hshown : t.shown (pixelAt row column dx dy) =
        if pixelAt row column dx dy ∈ WriteAscii font ⟨8 * s.cursorColumn, 16 * s.cursorRow⟩ (charIndex b)
        then fgColor else s.shown (pixelAt row column dx dy) := by
      refine shown_writes (fun p hp => ?_) (H.sized _ (inText_pixelAt hrow' hcolumn' hdx hdy))
      obtain ⟨dx', hdx', dy', hdy', -, rfl⟩ := (hmem p).mp hp
      exact H.sized _ (inText_pixelAt hrow (by omega) hdx' hdy')
    refine Eq.trans (b := t.shown (pixelAt row column dx dy)) rfl (hshown.trans ?_)
    have hcell := hcells row column
    rw [H.shows row hrow' column hcolumn' dx hdx dy hdy]
    by_cases hat : row = s.cursorRow ∧ column = s.cursorColumn
    · rw [if_pos hat] at hcell
      obtain ⟨rfl, rfl⟩ := hat
      rw [hcell, hempty]
      refine if_congr ((hmem _).trans ?_) rfl (if_neg Bool.false_ne_true)
      constructor
      · rintro ⟨dx', hdx', dy', hdy', hink, heq⟩
        obtain ⟨-, -, rfl, rfl⟩ := pixelAt_inj hdx hdy hdx' hdy' heq
        exact hink
      · exact fun hink => ⟨dx, hdx, dy, hdy, hink, rfl⟩
    · rw [if_neg hat] at hcell
      rw [hcell, if_neg]
      intro hp
      obtain ⟨dx', hdx', dy', hdy', -, heq⟩ := (hmem _).mp hp
      obtain ⟨hr, hc, -⟩ := pixelAt_inj hdx hdy hdx' hdy' heq
      exact hat ⟨hr, hc⟩

theorem Inv.putChar (H : Inv font fgColor bgColor printed s) (h : IsAscii printed) :
    ∃ s', s.putChar font fgColor bgColor b = some s' ∧ s'.window.isSome = s.window.isSome ∧
      Inv font fgColor bgColor (printed ++ [b]) s' := by
  by_cases hb : b = 0x0a
  · obtain ⟨s', hs', hrest⟩ := H.newline h
    exact ⟨s', by rw [Console.putChar, if_pos hb, hs'], hb ▸ hrest⟩
  by_cases hcolumn : s.cursorColumn < kColumns - 1
  · exact H.write hb hcolumn
  · -- the row is full, and the character is dropped
    have hcells : cellOf (printed ++ [b]) = cellOf printed := by
      funext row column
      rw [cellOf, TextScreen.cell_concat hb (by decide), ← H.cursorColumn, if_neg]
      · rfl
      · rintro ⟨-, rfl, hlt⟩
        exact hcolumn hlt
    refine ⟨s, by rw [Console.putChar, if_neg hb, if_neg hcolumn], rfl, ⟨H.sized, ?_, ?_, ?_, ?_⟩⟩
    · rw [TextScreen.cursorRow_concat hb, H.cursorRow]
    · rw [TextScreen.cursorColumn_concat hb, ← H.cursorColumn, if_neg hcolumn]
    · exact hcells ▸ H.buffers
    · exact hcells ▸ H.shows

theorem Inv.putString (H : Inv font fgColor bgColor printed s) (h : IsAscii printed) {str : List UInt8}
    (hstr : IsAscii str) : ∃ s', s.putString font fgColor bgColor str = some s' ∧
      s'.window.isSome = s.window.isSome ∧ Inv font fgColor bgColor (printed ++ str) s' := by
  induction str generalizing s printed with
  | nil => exact ⟨s, rfl, rfl, (List.append_nil printed).symm ▸ H⟩
  | cons b str ih =>
    obtain ⟨hb, hstr⟩ := List.forall_mem_cons.mp hstr
    obtain ⟨t, ht, hwindow, hinv⟩ := H.putChar (b := b) h
    obtain ⟨s', hs', hwindow', hinv'⟩ :=
      ih hinv (List.forall_mem_append.mpr ⟨h, List.forall_mem_singleton.mpr hb⟩) hstr
    refine ⟨s', ?_, hwindow'.trans hwindow, ?_⟩
    · rw [Console.putString, List.foldlM_cons, ht]
      exact hs'
    · rw [List.append_assoc] at hinv'
      exact hinv'

/-- The window is drawn from the buffer, which has the whole text as long as there has not been a window. -/
theorem Inv.setWindow (H : Inv font fgColor bgColor printed s) (h : IsAscii printed) (hnone : s.window = none)
    {win : BufferedWindow} (hwidth : 8 * kColumns ≤ win.width) (hheight : 16 * kRows ≤ win.height) :
    (s.setWindow font fgColor bgColor win).window.isSome ∧
      Inv font fgColor bgColor printed (s.setWindow font fgColor bgColor win) := by
  let t : Console := { s with window := some win }
  have hsized : t.Sized := by
    rintro p ⟨⟨hleft, hright⟩, htop, hbottom⟩
    refine BufferedWindow.contains_iff.mpr ⟨⟨hleft, ?_⟩, htop, ?_⟩
    · exact hright.trans_le hwidth
    · exact hbottom.trans_le hheight
  obtain ⟨hredrawn, hshows⟩ := @refresh_spec font fgColor bgColor t (cellOf printed) hsized
    (fun row _ => rowCells_cellOf h row) (H.buffers hnone)
  have hset : s.setWindow font fgColor bgColor win = t.refresh font fgColor bgColor := rfl
  rw [hset]
  have hsome : (t.refresh font fgColor bgColor).window.isSome = true := hredrawn.window
  refine ⟨hsome, ⟨hredrawn.sized hsized, hredrawn.cursorRow.trans H.cursorRow,
    hredrawn.cursorColumn.trans H.cursorColumn, fun hwindow => ?_, hshows⟩⟩
  rw [hwindow] at hsome
  cases hsome

theorem inv_init {screen : FrameBufferConfig} {screenBytes : Int → UInt8}
    (hwidth : 8 * kColumns ≤ screen.horizontalResolution) (hheight : 16 * kRows ≤ screen.verticalResolution) :
    (init font fgColor bgColor screen screenBytes).window.isSome = false ∧
      Inv font fgColor bgColor [] (init font fgColor bgColor screen screenBytes) := by
  let t : Console := ⟨screen, screenBytes, none, fun _ _ => 0, 0, 0⟩
  have hcells : cellOf [] = fun _ _ => none := by
    funext row column
    cases h : cellOf [] row column with
    | none => rfl
    | some c => exact absurd (TextScreen.mem_of_cell (by decide) h).1 List.not_mem_nil
  have hsized : t.Sized := by
    rintro p ⟨⟨hleft, hright⟩, htop, hbottom⟩
    refine ⟨⟨hleft, hright.trans_le ?_⟩, htop, hbottom.trans_le ?_⟩
    · exact_mod_cast hwidth
    · exact_mod_cast hheight
  have hbuffers : t.Buffers (cellOf []) := fun row _ k => by
    rw [hcells]
    rfl
  obtain ⟨hredrawn, hshows⟩ := @refresh_spec font fgColor bgColor t (cellOf []) hsized
    (fun row _ => rowCells_cellOf (fun _ h => absurd h List.not_mem_nil) row) hbuffers
  have hinit : init font fgColor bgColor screen screenBytes = t.refresh font fgColor bgColor := rfl
  have hrow : TextScreen.cursorRow 0x0a kRows ([] : List UInt8) = 0 := by
    rw [TextScreen.cursorRow_eq, List.splitOn_nil]
    rfl
  have hcolumn : TextScreen.cursorColumn 0x0a (kColumns - 1) ([] : List UInt8) = 0 := by
    rw [TextScreen.cursorColumn, List.splitOn_nil]
    rfl
  rw [hinit]
  refine ⟨hredrawn.window, ⟨hredrawn.sized hsized, ?_, ?_, fun _ row hrow k => ?_, hshows⟩⟩
  · rw [hredrawn.cursorRow, hrow]
  · rw [hredrawn.cursorColumn, hcolumn]
  · rw [hredrawn.buffer]
    exact hbuffers row hrow k

/-- What one call does: the text it prints comes behind the text on the screen. -/
theorem Inv.step (H : Inv font fgColor bgColor printed s) (h : IsAscii printed) {e : Event}
    (hascii : IsAscii e.printed) (hnone : e.isSetWindow → s.window = none)
    (hsize : ∀ win, e = .setWindow win → 8 * kColumns ≤ win.width ∧ 16 * kRows ≤ win.height) :
    ∃ s', s.step font fgColor bgColor e = some s' ∧ s'.window.isSome = (s.window.isSome || e.isSetWindow) ∧
      Inv font fgColor bgColor (printed ++ e.printed) s' := by
  cases e with
  | putString str =>
    obtain ⟨s', hs', hwindow, hinv⟩ := H.putString h hascii
    exact ⟨s', hs', hwindow.trans (Bool.or_false _).symm, hinv⟩
  | setWindow win =>
    obtain ⟨hwidth, hheight⟩ := hsize win rfl
    obtain ⟨hsome, hinv⟩ := H.setWindow h (hnone rfl) hwidth hheight
    refine ⟨_, rfl, hsome.trans (Bool.or_true _).symm, ?_⟩
    rw [Event.printed, List.append_nil]
    exact hinv

theorem Inv.exec {events : List Event} (H : Inv font fgColor bgColor printed s) (h : IsAscii printed)
    (hascii : ∀ e ∈ events, IsAscii e.printed)
    (honce : events.countP Event.isSetWindow + s.window.isSome.toNat ≤ 1)
    (hsize : ∀ win, Event.setWindow win ∈ events → 8 * kColumns ≤ win.width ∧ 16 * kRows ≤ win.height) :
    ∃ s', (system font fgColor bgColor).exec s events = some s' ∧
      Inv font fgColor bgColor (printed ++ events.flatMap Event.printed) s' := by
  induction events generalizing s printed with
  | nil => exact ⟨s, rfl, (List.append_nil printed).symm ▸ H⟩
  | cons e events ih =>
    obtain ⟨he, hascii⟩ := List.forall_mem_cons.mp hascii
    rw [List.countP_cons] at honce
    obtain ⟨t, ht, hwindow, hinv⟩ := H.step h he
      (fun hset => by
        rw [if_pos hset] at honce
        cases hs : s.window with
        | none => rfl
        | some win =>
          rw [hs] at honce
          exact absurd honce (by simp))
      (fun win heq => hsize win (heq ▸ List.mem_cons_self))
    obtain ⟨s', hs', hinv'⟩ := ih hinv (List.forall_mem_append.mpr ⟨h, he⟩) hascii
      (by
        rw [hwindow]
        cases hset : e.isSetWindow <;> cases hs : s.window.isSome <;> simp_all)
      (fun win hwin => hsize win (List.mem_cons_of_mem _ hwin))
    refine ⟨s', ?_, ?_⟩
    · rw [Transition.System.exec, show (system font fgColor bgColor).step s e = some t from ht]
      exact hs'
    · rw [List.append_assoc] at hinv'
      exact hinv'

/-- Whatever is printed in 7 bits, in any number of calls and with the window set before, between or after them,
the console shows at each pixel the last 25 lines of all of it, each up to its 79th character. -/
theorem console_shows_last_lines (font : Font) (fgColor bgColor : PixelColor) (screen : FrameBufferConfig)
    (screenBytes : Int → UInt8) (events : List Event) (hwidth : 8 * kColumns ≤ screen.horizontalResolution)
    (hheight : 16 * kRows ≤ screen.verticalResolution) (hascii : ∀ e ∈ events, IsAscii e.printed)
    (honce : events.countP Event.isSetWindow ≤ 1)
    (hsize : ∀ win, Event.setWindow win ∈ events → win.width = 8 * kColumns ∧ win.height = 16 * kRows) :
    ∃ s, (system font fgColor bgColor).exec (init font fgColor bgColor screen screenBytes) events = some s ∧
      s.cursorRow = TextScreen.cursorRow 0x0a kRows (events.flatMap Event.printed) ∧
      s.cursorColumn = TextScreen.cursorColumn 0x0a (kColumns - 1) (events.flatMap Event.printed) ∧
      ∀ row < kRows, ∀ column < kColumns, ∀ dx < 8, ∀ dy < 16, s.shown (pixelAt row column dx dy) =
        if cellInked font (cellOf (events.flatMap Event.printed) row column) dx dy then fgColor else bgColor := by
  obtain ⟨hnone, hfirst⟩ := @inv_init font fgColor bgColor screen screenBytes hwidth hheight
  obtain ⟨s, hs, hinv⟩ := hfirst.exec (fun _ h => absurd h List.not_mem_nil) hascii (by rw [hnone]; exact honce)
    fun win hwin => ⟨(hsize win hwin).1.ge, (hsize win hwin).2.ge⟩
  exact ⟨s, hs, hinv.cursorRow, hinv.cursorColumn, hinv.shows⟩

/-- Two lines, of which the second one is printed into the window. -/
theorem console_shows_last_lines_window :
    let font : Font := ⟨fun index => some fun _ => index.toUInt8, fun _ => none⟩
    let screen : FrameBufferConfig := ⟨.kPixelBGRResv8BitPerColor, 640, 640, 400, by decide, by decide⟩
    let window : Window := ⟨640, 400, by decide, by decide, by decide, by decide, by decide⟩
    let win := BufferedWindow.new window .kPixelBGRResv8BitPerColor (by decide)
    let events := [Event.putString [0x41, 0x0a], .setWindow win, .putString [0x42]]
    ∃ s, (system font ⟨0, 0, 0⟩ ⟨255, 255, 255⟩).exec
        (init font ⟨0, 0, 0⟩ ⟨255, 255, 255⟩ screen fun _ => 0) events = some s ∧
      s.cursorRow = TextScreen.cursorRow 0x0a kRows (events.flatMap Event.printed) ∧
      s.cursorColumn = TextScreen.cursorColumn 0x0a (kColumns - 1) (events.flatMap Event.printed) ∧
      ∀ row < kRows, ∀ column < kColumns, ∀ dx < 8, ∀ dy < 16, s.shown (pixelAt row column dx dy) =
        if cellInked font (cellOf (events.flatMap Event.printed) row column) dx dy then ⟨0, 0, 0⟩
        else ⟨255, 255, 255⟩ := by
  intro font screen window win events
  refine console_shows_last_lines font ⟨0, 0, 0⟩ ⟨255, 255, 255⟩ screen (fun _ => 0) events le_rfl le_rfl ?_
    (by decide) fun win' h => ?_
  · have hfirst : IsAscii [0x41, 0x0a] := by simp [IsAscii]
    have hsecond : IsAscii [0x42] := by simp [IsAscii]
    intro e he
    rcases List.mem_cons.mp he with rfl | he
    · exact hfirst
    · rcases List.mem_cons.mp he with rfl | he
      · exact fun _ h => absurd h List.not_mem_nil
      · obtain rfl := List.mem_singleton.mp he
        exact hsecond
  · simp only [events, List.mem_cons, reduceCtorEq, false_or, or_false, Event.setWindow.injEq,
      List.not_mem_nil] at h
    subst h
    exact ⟨rfl, rfl⟩

end Console

end MikanOS
