import MikanOS.Fat.RoundTrip
import MikanOS.Graphics.PixelWriter
import MikanOS.Terminal.ExecuteLine

/-! # The keys of a terminal

`Terminal::InputKey`, `Print` and `HistoryUpDown`: the line buffer, the history of lines, and the cursor with
the character cells that are drawn. -/

namespace MikanOS.CommandLine

/-- `Terminal::kRows` and `Terminal::kColumns`. -/
def kRows : Int := 15
def kColumns : Int := 60

/-- The area of a character: 16 pixels high, and 8 or 16 pixels wide. -/
structure Cell where
  pos : Vector2D
  width : Int
  deriving DecidableEq

/-- The string in an element of `cmd_history_`. -/
abbrev HistoryLine := { s : List UInt8 // s.length < kLineMax }

/-- A `Terminal` with its line, its history and its cursor, and the cells that were drawn in its window. -/
structure Terminal where
  shell : Shell
  cursor : Vector2D
  showWindow : Bool
  cmdHistory : List HistoryLine
  cmdHistoryIndex : Int
  drawn : List Cell

/-! ## The line -/

namespace LineBuf

/-- The accesses are counted anew. -/
def fresh (l : LineBuf) : LineBuf := { l with accesses := [] }

theorem getElem?_store (l : LineBuf) (i : Fin kLineMax) (c : UInt8) :
    (l.store i.val c).bytes[i.val]? = some c := by
  rw [store_natCast]
  exact List.getElem?_set_self (l.length_bytes.symm ▸ i.isLt)

/-- `strcpy(&linebuf_[0], history)`. -/
def strcpy (l : LineBuf) (history : HistoryLine) : LineBuf where
  bytes := history.val ++ 0 :: l.bytes.drop (history.val.length + 1)
  length_bytes := by
    have := history.property
    rw [List.length_append, List.length_cons, List.length_drop, l.length_bytes]
    omega
  accesses := l.accesses

end LineBuf

namespace Shell

variable (t : Shell)

/-- The line before `ExecuteLine`: `linebuf_[linebuf_index_] = 0`. -/
def terminated : Shell := { t with line := t.line.fresh.store t.linebufIndex.val 0 }

theorem terminated_zero : t.terminated.line.bytes[t.linebufIndex.val]? = some 0 :=
  LineBuf.getElem?_store _ _ _

/-- What `cmd_history_.push_front(linebuf_)` puts in front. -/
def historyLine : HistoryLine :=
  ⟨CString.string t.terminated.line.bytes 0, by
    have := CString.add_length_string_le t.terminated_zero (Nat.zero_le _)
    have := t.linebufIndex.isLt
    omega⟩

end Shell

/-! ## The window -/

namespace Terminal

variable (t : Terminal)

/-- `CalcCursorPos`, with the top left margin of the window. -/
def calcCursorPos : Vector2D := ⟨4 + (4 + 8 * t.cursor.x), 24 + (4 + 16 * t.cursor.y)⟩

/-- A character is drawn at the cursor. -/
def draw (width : Int) : Terminal := { t with drawn := t.drawn ++ [⟨t.calcCursorPos, width⟩] }

def moveX (x : Int) : Terminal := { t with cursor := { t.cursor with x } }

/-- The lambda `newline` of `Print`; at the last row `Scroll1` moves the window's contents up. -/
def newLine : Terminal :=
  { t with cursor := ⟨0, if t.cursor.y < kRows - 1 then t.cursor.y + 1 else t.cursor.y⟩ }

/-- `Print(char32_t)`. -/
def printChar (c : Nat) : Terminal :=
  if !t.showWindow then t
  else if c = 0x0a then t.newLine
  else if IsHankaku c then
    let t := if t.cursor.x = kColumns then t.newLine else t
    (t.draw 8).moveX (t.cursor.x + 1)
  else
    let t := if kColumns - 1 ≤ t.cursor.x then t.newLine else t
    (t.draw 16).moveX (t.cursor.x + 2)

/-- The loop of `Print(const char*)` from the byte `i` on, up to a number of turns. -/
def printLoop (s : Nat → UInt8) (len : Option Nat) : (turns i : Nat) → Terminal → Terminal
  | 0, _, t => t
  | turns + 1, i, t =>
    if s i ≠ 0 ∧ ∀ n ∈ len, i < n then
      let (u32, bytes) := ConvertUTF8To32 fun j => s (i + j)
      printLoop s len turns (i + bytes) (t.printChar u32)
    else t

/-- What happens in the window: a string is printed, or `clear` is executed. -/
inductive Output where
  | print (s : Nat → UInt8) (len : Option Nat) (turns : Nat)
  | clear

def output : Output → Terminal
  | .print s len turns => printLoop s len turns 0 t
  | .clear => { t with cursor := { t.cursor with y := 0 } }

/-- The prompt. -/
def prompt : Terminal := ((t.printChar 0x3e).printChar 0x3e).printChar 0x20

/-- `HistoryUpDown`. -/
def historyUpDown (direction : Int) : Terminal :=
  let cmdHistoryIndex :=
    if direction = -1 ∧ 0 ≤ t.cmdHistoryIndex then t.cmdHistoryIndex - 1
    else if direction = 1 ∧ t.cmdHistoryIndex + 1 < t.cmdHistory.length then t.cmdHistoryIndex + 1
    else t.cmdHistoryIndex
  let history : HistoryLine :=
    if 0 ≤ cmdHistoryIndex then t.cmdHistory.getD cmdHistoryIndex.toNat ⟨[], kLineMax_pos⟩ else ⟨[], kLineMax_pos⟩
  let firstPos := (t.moveX 3).calcCursorPos
  let cells := (textCells (history.val.getD · 0) kLineMax 0 0).map fun cell => Cell.mk
    ⟨firstPos.x + 8 * cell.1, firstPos.y⟩ (if IsHankaku cell.2 then 8 else 16)
  let shell : Shell := { t.shell with
    line := t.shell.line.strcpy history
    linebufIndex := ⟨history.val.length, history.property⟩ }
  { t with shell, cmdHistoryIndex, drawn := t.drawn ++ cells }.moveX (history.val.length + 3)

/-! ## `InputKey` -/

/-- Enter. While the line is executed, the terminal prints `outputs`. -/
def enter (k : Kernel) (outputs : List Output) : Option Terminal := do
  let cmdHistory :=
    if 0 < t.shell.linebufIndex.val then t.shell.historyLine :: t.cmdHistory.dropLast else t.cmdHistory
  let t := { t.newLine with cmdHistory, cmdHistoryIndex := -1 }
  let shell ← t.shell.terminated.executeLine k
  some (outputs.foldl output { t with shell }).prompt

def backspace : Terminal :=
  if 0 < t.cursor.x then
    let shell : Shell := { t.shell with
      linebufIndex := ⟨t.shell.linebufIndex - 1, Nat.lt_of_le_of_lt
      (Nat.sub_le _ _) t.shell.linebufIndex.isLt⟩ }
    { t with shell }.moveX (t.cursor.x - 1)
  else t

/-- A character is typed. -/
def type (ascii : UInt8) : Terminal :=
  let t :=
    if h : t.cursor.x < kColumns - 1 ∧ t.shell.linebufIndex.val < kLineMax - 1 then
      let shell : Shell := { t.shell with
        line := t.shell.line.store t.shell.linebufIndex.val ascii
        linebufIndex := ⟨t.shell.linebufIndex + 1, Nat.add_lt_of_lt_sub h.2⟩ }
      { (if t.showWindow then t.draw 8 else t) with shell }.moveX (t.cursor.x + 1)
    else t
  if t.cursor.x = kColumns - 1 then t.newLine else t

/-- `InputKey`, if it returns. -/
def inputKey (k : Kernel) (outputs : List Output) (keycode ascii : UInt8) : Option Terminal :=
  if ascii = 0x0a then t.enter k outputs
  else if ascii = 0x08 then some t.backspace
  else if ascii ≠ 0 then some (t.type ascii)
  else if keycode = 0x51 then some (t.historyUpDown (-1))
  else if keycode = 0x52 then some (t.historyUpDown 1)
  else some t

/-- The constructor, for a terminal with a window. -/
def init (vol : Fat.Volume) : Terminal :=
  prompt {
    shell := {
      line := ⟨List.replicate kLineMax 0, List.length_replicate, []⟩
      linebufIndex := ⟨0, kLineMax_pos⟩
      files := fun i => .given i
      lastExitCode := 0
      vol
      effects := [] }
    cursor := ⟨0, 0⟩
    showWindow := true
    cmdHistory := List.replicate 8 ⟨[], kLineMax_pos⟩
    cmdHistoryIndex := -1
    drawn := [] }

/-! ## The state after a line -/

variable {t} {t' : Terminal} {k : Kernel} {outputs : List Output}

@[simp] theorem printChar_shell (t : Terminal) (c : Nat) : (t.printChar c).shell = t.shell := by
  simp only [printChar]
  split
  · rfl
  split
  · rfl
  split <;> split <;> rfl

@[simp] theorem printLoop_shell (s : Nat → UInt8) (len : Option Nat) (turns i : Nat) (t : Terminal) :
    (printLoop s len turns i t).shell = t.shell := by
  induction turns generalizing i t with
  | zero => rfl
  | succ turns ih =>
    rw [printLoop]
    split
    · exact (ih _ _).trans (printChar_shell _ _)
    · rfl

@[simp] theorem output_shell (t : Terminal) (o : Output) : (t.output o).shell = t.shell := by
  cases o with
  | print s len turns => exact printLoop_shell s len turns 0 t
  | clear => rfl

@[simp] theorem foldl_output_shell (outputs : List Output) (t : Terminal) :
    (outputs.foldl output t).shell = t.shell := by
  induction outputs generalizing t with
  | nil => rfl
  | cons o outputs ih => rw [List.foldl_cons, ih, output_shell]

theorem enter_shell (h : t.enter k outputs = some t') :
    t.shell.terminated.executeLine k = some t'.shell := by
  obtain ⟨shell, hshell, h⟩ := Option.bind_eq_some_iff.mp h
  cases h
  rw [prompt, printChar_shell, printChar_shell, printChar_shell, foldl_output_shell]
  exact hshell

/-- After Enter the line is empty and the standard output is what it was, unless the line has a redirection
that fails. -/
theorem enter_resets_iff {keycode : UInt8} (h : t.inputKey k outputs keycode 0x0a = some t') :
    (t'.shell.linebufIndex.val = 0 ∧ t'.shell.files 1 = t.shell.files 1) ↔
      ¬t.shell.terminated.RedirectFails := by
  refine Shell.executeLine_resets_iff (t := t.shell.terminated) (enter_shell h) fun hmark => ?_
  obtain ⟨mark, hmark⟩ := Option.ne_none_iff_exists'.mp hmark
  rw [Shell.redirChar, LineBuf.locate_redirChar] at hmark
  obtain ⟨-, hlt, -⟩ := CString.strchr_eq_some hmark
  exact Nat.lt_of_lt_of_le (Nat.zero_lt_of_lt hlt)
    (CString.add_length_string_le t.shell.terminated_zero (Nat.zero_le _))

/-- A kernel in which nothing is read and no application is found. -/
def quiet : Kernel where
  newTask := 5
  read _ := []
  executeFile _ _ _ := ⟨0, .kSuccess⟩
  waitFinish := 0
  devices := []
  allocatedFrames := 0
  totalFrames := 0

/-- A new terminal in which a line was typed. -/
def typed (line : List UInt8) : Terminal := line.foldl type (init Fat.FileDescriptor.emptyVolume)

theorem enter_resets_iff_echo : ∃ t', (typed (text "echo a")).inputKey quiet [] 0 0x0a = some t' ∧
    ((t'.shell.linebufIndex.val = 0 ∧ t'.shell.files 1 = (typed (text "echo a")).shell.files 1) ↔
      ¬(typed (text "echo a")).shell.terminated.RedirectFails) := by
  have hsome : ((typed (text "echo a")).inputKey quiet [] 0 0x0a).isSome = true := by decide +kernel
  obtain ⟨t', ht'⟩ := Option.isSome_iff_exists.mp hsome
  exact ⟨t', ht', enter_resets_iff ht'⟩

/-- The output is redirected to a directory that is not there, and the line stays. -/
theorem not_enter_resets : ∃ t', (typed (text "ls > a/")).inputKey quiet [] 0 0x0a = some t' ∧
    ¬(t'.shell.linebufIndex.val = 0 ∧ t'.shell.files 1 = (typed (text "ls > a/")).shell.files 1) := by
  have hindex : ((typed (text "ls > a/")).inputKey quiet [] 0 0x0a).map
      (fun t' => t'.shell.linebufIndex.val) = some 7 := by decide +kernel
  obtain ⟨t', ht', hseven⟩ := Option.map_eq_some_iff.mp hindex
  refine ⟨t', ht', fun h => ?_⟩
  rw [h.1] at hseven
  cases hseven

end Terminal

end MikanOS.CommandLine
