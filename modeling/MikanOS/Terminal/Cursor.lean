import MikanOS.Library.Transition
import MikanOS.Terminal.InputKey

/-! # The cursor and the window

What the keys and `Print` draw, against the window of the terminal. `Print` and the typed characters wrap at
the last columns; `HistoryUpDown` draws a line of the history in one row and does not. -/

namespace MikanOS.CommandLine

/-- The size of the window, with its margins. -/
def windowSize : Vector2D := ⟨kColumns * 8 + 8 + (4 + 4), kRows * 16 + 8 + (24 + 4)⟩

/-- The cell is inside the window. -/
structure Cell.Inside (cell : Cell) : Prop where
  left : 0 ≤ cell.pos.x
  right : cell.pos.x + cell.width ≤ windowSize.x
  top : 0 ≤ cell.pos.y
  bottom : cell.pos.y + 16 ≤ windowSize.y

namespace Terminal

/-- The cursor is in the text area, or right behind a row of it, and all that was drawn is inside the
window. -/
structure InWindow (t : Terminal) : Prop where
  x : 0 ≤ t.cursor.x ∧ t.cursor.x ≤ kColumns
  y : 0 ≤ t.cursor.y ∧ t.cursor.y < kRows
  drawn : ∀ cell ∈ t.drawn, cell.Inside

variable {t t' : Terminal} {k : Kernel} {outputs : List Output}

namespace InWindow

/-- Only the cursor and the cells matter. -/
theorem congr (H : t.InWindow) (hcursor : t'.cursor = t.cursor) (hdrawn : t'.drawn = t.drawn) : t'.InWindow :=
  ⟨hcursor ▸ H.x, hcursor ▸ H.y, hdrawn ▸ H.drawn⟩

theorem moveX (H : t.InWindow) {x : Int} (hx : 0 ≤ x ∧ x ≤ kColumns) : (t.moveX x).InWindow :=
    ⟨hx, H.y, H.drawn⟩

/-- A character that ends in front of the right margin is drawn inside. -/
theorem draw (H : t.InWindow) {width : Int} (hwidth : 8 * t.cursor.x + width ≤ 8 * kColumns) :
    (t.draw width).InWindow := by
  refine ⟨H.x, H.y, fun cell hcell => ?_⟩
  have hx := H.x
  have hy := H.y
  rcases List.mem_append.mp hcell with hcell | hcell
  · exact H.drawn cell hcell
  · rw [List.mem_singleton.mp hcell]
    simp only [kColumns, kRows] at hx hy hwidth
    constructor <;> simp only [calcCursorPos, windowSize, kColumns, kRows] <;> omega

theorem newLine (H : t.InWindow) : t.newLine.InWindow := by
  refine ⟨(by decide : 0 ≤ (0 : Int) ∧ 0 ≤ kColumns), ?_, H.drawn⟩
  have hy := H.y
  show 0 ≤ (if t.cursor.y < kRows - 1 then t.cursor.y + 1 else t.cursor.y) ∧
    (if t.cursor.y < kRows - 1 then t.cursor.y + 1 else t.cursor.y) < kRows
  split <;> omega

/-- A character of one or two columns. -/
theorem advance (H : t.InWindow) {width columns : Int} (hwidth : width = 8 * columns) (hpos : 0 ≤ columns)
    (hroom : t.cursor.x + columns ≤ kColumns) : ((t.draw width).moveX (t.cursor.x + columns)).InWindow := by
  have hx := H.x
  exact (H.draw (by omega)).moveX ⟨by omega, hroom⟩

theorem printChar (H : t.InWindow) (c : Nat) : (t.printChar c).InWindow := by
  have hx := H.x
  have hnew : ∀ {columns : Int}, columns ≤ 2 → t.newLine.cursor.x + columns ≤ kColumns := by
    intro columns hcolumns
    show 0 + columns ≤ 60
    omega
  rw [Terminal.printChar]
  split
  · exact H
  split
  · exact H.newLine
  split
  · simp only []
    split
    · exact H.newLine.advance rfl (by decide) (hnew (by decide))
    · exact H.advance rfl (by decide) (by omega)
  · simp only []
    split
    · exact H.newLine.advance rfl (by decide) (hnew (by decide))
    · exact H.advance rfl (by decide) (by omega)

theorem printLoop (H : t.InWindow) (s : Nat → UInt8) (len : Option Nat) (turns i : Nat) :
    (Terminal.printLoop s len turns i t).InWindow := by
  induction turns generalizing i t with
  | zero => exact H
  | succ turns ih =>
    rw [Terminal.printLoop]
    split
    · exact ih (H.printChar _) _
    · exact H

theorem output (H : t.InWindow) (o : Output) : (t.output o).InWindow := by
  cases o with
  | print s len turns => exact H.printLoop s len turns 0
  | clear => exact ⟨H.x, (by decide : 0 ≤ (0 : Int) ∧ 0 < kRows), H.drawn⟩

theorem foldl_output (H : t.InWindow) (outputs : List Output) :
    (outputs.foldl Terminal.output t).InWindow := by
  induction outputs generalizing t with
  | nil => exact H
  | cons o outputs ih => exact ih (H.output o)

theorem prompt (H : t.InWindow) : t.prompt.InWindow := ((H.printChar _).printChar _).printChar _

theorem enter (H : t.InWindow) (h : t.enter k outputs = some t') : t'.InWindow := by
  obtain ⟨shell, -, h⟩ := Option.bind_eq_some_iff.mp h
  cases h
  refine (InWindow.foldl_output ?_ outputs).prompt
  exact H.newLine.congr rfl rfl

theorem backspace (H : t.InWindow) : t.backspace.InWindow := by
  have hx := H.x
  rw [Terminal.backspace]
  split
  · refine InWindow.moveX ?_ ⟨by omega, by omega⟩
    exact H.congr rfl rfl
  · exact H

/-- Typed characters wrap one column earlier. -/
theorem type (H : t.InWindow) (ascii : UInt8) : (t.type ascii).InWindow := by
  have hx := H.x
  have htyped {t : Terminal} (H : t.InWindow) :
      (if t.cursor.x = kColumns - 1 then t.newLine else t).InWindow := by
    split
    · exact H.newLine
    · exact H
  rw [Terminal.type]
  refine htyped ?_
  split
  · rename_i hroom
    refine InWindow.moveX ?_ ⟨by omega, by omega⟩
    split
    · exact (H.draw (by omega)).congr rfl rfl
    · exact H.congr rfl rfl
  · exact H

end InWindow

/-! ## Lines of the history -/

/-- The text from `i` on is made of whole characters, and ends at `len`. -/
inductive WholeChars (s : Nat → UInt8) (len : Nat) : Nat → Prop
  | done : WholeChars s len len
  | char {i : Nat} : 0 < (ConvertUTF8To32 fun k => s (i + k)).2 →
      WholeChars s len (i + (ConvertUTF8To32 fun k => s (i + k)).2) → WholeChars s len i

/-- A character takes no more columns than bytes. -/
theorem columns_le_bytes {u8 : Nat → UInt8} (h : 0 < (ConvertUTF8To32 u8).2) :
    (if IsHankaku (ConvertUTF8To32 u8).1 then 1 else 2 : Int) ≤ (ConvertUTF8To32 u8).2 := by
  by_cases hascii : u8 0 < 0x80
  · have hone : ConvertUTF8To32 u8 = ((u8 0).toNat, 1) := by
      simp only [ConvertUTF8To32, CountUTF8Size, if_pos hascii]
    have hhankaku : IsHankaku (u8 0).toNat := Nat.le_of_lt_succ hascii
    rw [hone, if_pos hhankaku]
    exact Int.le_refl 1
  · have htwo : 2 ≤ (ConvertUTF8To32 u8).2 := by
      simp only [ConvertUTF8To32, CountUTF8Size, if_neg hascii] at h ⊢
      split_ifs at h ⊢
      · exact Nat.le_refl 2
      · exact Nat.le_succ 2
      · exact Nat.le_add_right 2 2
      · exact absurd h (Nat.lt_irrefl 0)
    split <;> omega

theorem WholeChars.le {s : Nat → UInt8} {len i : Nat} (h : WholeChars s len i) : i ≤ len := by
  induction h with
  | done => exact Nat.le_refl _
  | char _ _ ih => omega

/-- The cells of a text stay within as many columns as it has bytes. -/
theorem WholeChars.textCells {s : Nat → UInt8} {len i : Nat} (h : WholeChars s len i) (hend : s len = 0)
    (hlen : len < 2 ^ 30) {x : Int} (hx : 0 ≤ x ∧ x ≤ i) (turns : Nat) :
    ∀ cell ∈ MikanOS.textCells s turns i x,
      0 ≤ cell.1 ∧ cell.1 + (if IsHankaku cell.2 then 1 else 2) ≤ len := by
  induction turns generalizing i x with
  | zero => exact fun cell hcell => by cases hcell
  | succ turns ih =>
    rw [MikanOS.textCells]
    cases h with
    | done =>
      rw [if_pos hend]
      exact fun cell hcell => by cases hcell
    | char hpos hrest =>
      have hcolumns := columns_le_bytes hpos
      have hle := hrest.le
      split
      · exact fun cell hcell => by cases hcell
      · have hwrap : wrap32 (x + if IsHankaku (ConvertUTF8To32 fun k => s (i + k)).1 then 1 else 2) =
            x + if IsHankaku (ConvertUTF8To32 fun k => s (i + k)).1 then 1 else 2 := by
          refine wrap32_of_range ?_ ?_ <;> split <;> omega
        simp only [List.forall_mem_cons, hwrap]
        refine ⟨⟨hx.1, by omega⟩, ih hrest ⟨?_, by push_cast; omega⟩⟩
        split <;> omega

/-- What can be typed on the keyboard is made of whole characters. -/
theorem wholeChars_of_ascii {line : List UInt8} (h : ∀ c ∈ line, c < 0x80) {i : Nat} (hi : i ≤ line.length) :
    WholeChars (line.getD · 0) line.length i := by
  obtain ⟨n, hn⟩ := Nat.exists_eq_add_of_le hi
  induction n generalizing i with
  | zero =>
    rw [hn]
    exact .done
  | succ n ih =>
    have hlt : i < line.length := by omega
    have hsize : (ConvertUTF8To32 fun k => line.getD (i + k) 0).2 = 1 := by
      have hbyte : line.getD i 0 < 0x80 := by
        rw [List.getD_eq_getElem _ _ hlt]
        exact h _ (List.getElem_mem hlt)
      simp only [ConvertUTF8To32, CountUTF8Size, Nat.add_zero, if_pos hbyte]
    exact .char (hsize ▸ Nat.one_pos) (hsize ▸ ih hlt (by omega))

/-- The line that an arrow key recalls. -/
def recalled (t : Terminal) (direction : Int) : HistoryLine :=
  let cmdHistoryIndex := (t.historyUpDown direction).cmdHistoryIndex
  if 0 ≤ cmdHistoryIndex then t.cmdHistory.getD cmdHistoryIndex.toNat ⟨[], kLineMax_pos⟩ else ⟨[], kLineMax_pos⟩

theorem historyUpDown_cursor (t : Terminal) (direction : Int) :
    (t.historyUpDown direction).cursor = ⟨(t.recalled direction).val.length + 3, t.cursor.y⟩ := rfl

/-- A line that is short enough, and made of whole characters, stays inside the window. -/
theorem InWindow.historyUpDown (H : t.InWindow) {direction : Int}
    (hlen : (t.recalled direction).val.length ≤ 57)
    (hchars : WholeChars ((t.recalled direction).val.getD · 0) (t.recalled direction).val.length 0) :
    (t.historyUpDown direction).InWindow := by
  have hy := H.y
  refine ⟨?_, H.y, fun cell hcell => ?_⟩
  · rw [historyUpDown_cursor]
    simp only [kColumns]
    omega
  · rcases List.mem_append.mp hcell with hcell | hcell
    · exact H.drawn cell hcell
    · obtain ⟨⟨x, u32⟩, hmem, rfl⟩ := List.mem_map.mp hcell
      have hcolumns := hchars.textCells (by simp) (by omega) ⟨Int.le_refl 0, Int.le_refl 0⟩ kLineMax _ hmem
      simp only [kRows] at hy
      have hwidth : 8 * x + (if IsHankaku u32 then 8 else 16) ≤ 8 * 57 := by
        split
        · rw [if_pos ‹_›] at hcolumns
          omega
        · rw [if_neg ‹_›] at hcolumns
          omega
      constructor <;> simp only [calcCursorPos, Terminal.moveX, windowSize, kColumns, kRows] <;> omega

/-! ## Keys and printed strings -/

/-- What happens to a terminal: a key, while whose line `outputs` is printed if it is Enter, or a string
that is printed by an application. -/
inductive Event where
  | inputKey (k : Kernel) (outputs : List Output) (keycode ascii : UInt8)
  | print (s : Nat → UInt8) (len : Option Nat) (turns : Nat)

def step (t : Terminal) : Event → Option Terminal
  | .inputKey k outputs keycode ascii => t.inputKey k outputs keycode ascii
  | .print s len turns => some (t.output (.print s len turns))

def system : Transition.System Terminal Event := ⟨step⟩

/-- The line that an event recalls, if it is an arrow key. -/
def recalls (t : Terminal) : Event → Option HistoryLine
  | .inputKey _ _ keycode ascii =>
    if ascii ≠ 0 then none
    else if keycode = 0x51 then some (t.recalled (-1))
    else if keycode = 0x52 then some (t.recalled 1)
    else none
  | .print .. => none

/-- The event recalls no line, or one of at most 57 bytes. -/
def RecallsShort (t : Terminal) (e : Event) : Prop := ∀ h ∈ t.recalls e, h.val.length ≤ 57

/-- The event recalls no line, or one of whole characters. -/
def RecallsText (t : Terminal) (e : Event) : Prop := ∀ h ∈ t.recalls e,
    WholeChars (h.val.getD · 0) h.val.length 0

theorem InWindow.step (H : t.InWindow) {e : Event} (hshort : t.RecallsShort e) (htext : t.RecallsText e)
    (h : t.step e = some t') : t'.InWindow := by
  cases e with
  | print s len turns =>
    cases h
    exact H.output _
  | inputKey k outputs keycode ascii =>
    simp only [Terminal.step, inputKey] at h
    split at h
    · exact H.enter h
    split at h
    · cases h
      exact H.backspace
    split at h
    · cases h
      exact H.type ascii
    · rename_i hascii
      split at h
      · rename_i hdown
        have hrecalls : t.recalls (.inputKey k outputs keycode ascii) = some (t.recalled (-1)) := by
          rw [recalls, if_neg hascii, if_pos hdown]
        cases h
        exact H.historyUpDown (hshort _ hrecalls) (htext _ hrecalls)
      split at h
      · rename_i hdown hup
        have hrecalls : t.recalls (.inputKey k outputs keycode ascii) = some (t.recalled 1) := by
          rw [recalls, if_neg hascii, if_neg hdown, if_pos hup]
        cases h
        exact H.historyUpDown (hshort _ hrecalls) (htext _ hrecalls)
      · cases h
        exact H

/-- A key that recalls a long line moves the cursor out of the text area. -/
theorem InWindow.short_of_step {e : Event} (h : ∀ t', t.step e = some t' → t'.InWindow) :
    t.RecallsShort e := by
  intro history hrecalls
  cases e with
  | print s len turns => cases hrecalls
  | inputKey k outputs keycode ascii =>
    have hlength {direction : Int} (hstep : t.step (.inputKey k outputs keycode ascii) =
        some (t.historyUpDown direction)) : (t.recalled direction).val.length ≤ 57 := by
      have hx := (h _ hstep).x.2
      rw [historyUpDown_cursor] at hx
      simp only [kColumns] at hx
      omega
    simp only [recalls] at hrecalls
    split at hrecalls
    · cases hrecalls
    rename_i hascii
    rw [not_not] at hascii
    split at hrecalls
    · rename_i hdown
      cases hrecalls
      exact hlength (by rw [hascii, hdown]; rfl)
    split at hrecalls
    · rename_i hdown hup
      cases hrecalls
      exact hlength (by rw [hascii, hup]; rfl)
    · cases hrecalls

theorem inWindow_init (vol : Fat.Volume) : (init vol).InWindow := by
  refine InWindow.prompt ⟨?_, ?_, fun cell hcell => by cases hcell⟩
  · exact (by decide : 0 ≤ (0 : Int) ∧ 0 ≤ kColumns)
  · exact (by decide : 0 ≤ (0 : Int) ∧ 0 < kRows)

/-- `P` holds for every event of a run from `t`, in the state it occurs in. -/
def AllSteps (P : Terminal → Event → Prop) (t : Terminal) (es : List Event) : Prop :=
  ∀ pre e post t', es = pre ++ e :: post → system.Run t pre t' → P t' e

/-- From a new window on, the cursor stays in the text area and every cell in the window while the arrow
keys recall lines of at most 57 bytes; and they do recall only such lines if this is so. -/
theorem inWindow_throughout (vol : Fat.Volume) (es : List Event) :
    (AllSteps RecallsShort (init vol) es → AllSteps RecallsText (init vol) es →
        system.Throughout InWindow (init vol) es) ∧
      (system.Throughout InWindow (init vol) es → AllSteps RecallsShort (init vol) es) := by
  constructor
  · intro hshort htext pre post t hes hrun
    refine hrun.invariant_of_forall (P := fun t e => t.RecallsShort e ∧ t.RecallsText e)
      (fun t e t' H hP hs => H.step hP.1 hP.2 hs) (inWindow_init vol) fun pre' e post' t' hpre hrun' => ?_
    have hes' : es = pre' ++ e :: (post' ++ post) := by
      rw [hes, hpre, List.append_assoc, List.cons_append]
    exact ⟨hshort _ _ _ _ hes' hrun', htext _ _ _ _ hes' hrun'⟩
  · intro hall pre e post t hes hrun
    refine InWindow.short_of_step fun t' hs => hall (pre ++ [e]) post t' ?_ (hrun.snoc hs)
    rw [hes, List.append_assoc, List.singleton_append]

/-- A line of 58 letters is typed and executed, and then recalled with the up arrow. -/
def longLineEvents : List Event :=
  List.replicate 58 (.inputKey quiet [] 0 0x61) ++ [.inputKey quiet [] 0 0x0a, .inputKey quiet [] 0x52 0]

/-- The line was wrapped when it was typed, and is not when it is recalled. -/
theorem not_inWindow_throughout :
    ¬system.Throughout InWindow (init Fat.FileDescriptor.emptyVolume) longLineEvents := by
  have hx : (system.exec (init Fat.FileDescriptor.emptyVolume) longLineEvents).map
      (fun t => t.cursor.x) = some 61 := by
    decide +kernel
  obtain ⟨t, ht, hcursor⟩ := Option.map_eq_some_iff.mp hx
  intro hall
  have hle := (hall.last (Transition.System.run_of_exec ht)).x.2
  rw [hcursor] at hle
  exact absurd hle (by decide)

end Terminal

end MikanOS.CommandLine
