import MikanOS.Library.CString
import MikanOS.Terminal.ExecuteFile

/-! # The line buffer of the terminal

`linebuf_` of `terminal.hpp` with the reads and writes that `ExecuteLine` makes in it. Each access is
recorded by its index, also where it is outside, and so is each use of a null pointer. -/

namespace MikanOS.CommandLine

open CString

/-- `Terminal::kLineMax`. -/
def kLineMax : Nat := 128

theorem kLineMax_pos : 0 < kLineMax := by decide

/-- An element of `linebuf_`, or what a null pointer points to. -/
inductive Access where
  | element (index : Int)
  | null
  deriving DecidableEq

/-- The access is to an element that `linebuf_` has. -/
def Access.Inside : Access → Prop
  | .element index => 0 ≤ index ∧ index < kLineMax
  | .null => False

/-- `linebuf_`, with the accesses to it so far. -/
structure LineBuf where
  bytes : List UInt8
  length_bytes : bytes.length = kLineMax
  accesses : List Access

/-- A null pointer, or the index of the element that is pointed to. -/
abbrev Pointer := Option Nat

/-- The bytes of a text. -/
def text (s : String) : List UInt8 := s.toList.map fun ch => ch.toNat.toUInt8

def blank : UInt8 := 0x20

/-- `isspace` of the C locale. -/
abbrev isspace := Terminal.isspace

namespace LineBuf

variable (l : LineBuf)

def touch (accesses : List Access) : LineBuf := { l with accesses := l.accesses ++ accesses }

/-- The elements from `p` to `q`. -/
def span (p q : Nat) : List Access := (List.range (q + 1 - p)).map fun k => .element ((p + k : Nat) : Int)

/-- `linebuf_[i]`. The bytes right before `linebuf_` are the high ones of `linebuf_index_`, which are zero. -/
def load (i : Int) : UInt8 × LineBuf :=
  (if 0 ≤ i then l.bytes.getD i.toNat 0 else 0, l.touch [.element i])

@[simp] theorem load_natCast (n : Nat) : (l.load n).1 = l.bytes.getD n 0 := by
  simp [load]

/-- `linebuf_[i] = c`. -/
def store (i : Int) (c : UInt8) : LineBuf where
  bytes := if 0 ≤ i then l.bytes.set i.toNat c else l.bytes
  length_bytes := by
    split
    · rw [List.length_set, l.length_bytes]
    · exact l.length_bytes
  accesses := l.accesses ++ [.element i]

@[simp] theorem store_natCast (n : Nat) (c : UInt8) : (l.store n c).bytes = l.bytes.set n c := by
  simp [store]

/-- The string at `p`, as `strcmp`, `%s` or the constructor of `std::string` reads it. -/
def string (p : Nat) : List UInt8 × LineBuf :=
  (CString.string l.bytes p, l.touch (span p (p + (CString.string l.bytes p).length)))

/-- The string at a pointer; at a null pointer there is none. -/
def stringAt : Pointer → List UInt8 × LineBuf
  | some p => l.string p
  | none => ([], l.touch [.null])

/-- `strchr(&linebuf_[0], c)`. -/
def strchr (c : UInt8) : Pointer × LineBuf :=
  let found := CString.strchr l.bytes 0 c
  (found, l.touch (span 0 (found.getD (CString.string l.bytes 0).length)))

/-- `while (isspace(*p)) ++p`. -/
def skipSpaces (p : Nat) : Nat × LineBuf :=
  let q := skip isspace l.bytes p
  (q, l.touch (span p q))

/-- `first_arg`, `redir_char` and `pipe_char`. -/
structure Marks where
  firstArg : Pointer
  redirChar : Pointer
  pipeChar : Pointer
  deriving DecidableEq

/-- The beginning of `ExecuteLine`: the marks are looked up, and the command is cut off at the first
blank. -/
def locate : Marks × LineBuf :=
  let (_, l) := l.string 0
  let (firstArg, l) := l.strchr blank
  let (redirChar, l) := l.strchr 0x3e
  let (pipeChar, l) := l.strchr 0x7c
  match firstArg with
  | none => (⟨none, redirChar, pipeChar⟩, l)
  | some p =>
    let l := l.store p 0
    let (q, l) := l.skipSpaces (p + 1)
    (⟨some q, redirChar, pipeChar⟩, l)

theorem locate_redirChar : l.locate.1.redirChar = CString.strchr l.bytes 0 0x3e := by
  simp only [locate]
  split <;> rfl

theorem locate_pipeChar : l.locate.1.pipeChar = CString.strchr l.bytes 0 0x7c := by
  simp only [locate]
  split <;> rfl

/-- Behind the first blank, the argument begins at the next byte that is no blank. -/
theorem locate_firstArg : l.locate.1.firstArg =
    (CString.strchr l.bytes 0 blank).map fun p => skip isspace (l.bytes.set p 0) (p + 1) := by
  simp only [locate, strchr, string]
  cases hp : CString.strchr (l.touch _).bytes 0 blank with
  | none =>
    have hp : CString.strchr l.bytes 0 blank = none := hp
    rw [hp]
    rfl
  | some p =>
    have hp : CString.strchr l.bytes 0 blank = some p := hp
    rw [hp, Option.map_some]
    simp only [skipSpaces, store_natCast]
    rfl

theorem locate_bytes : l.locate.2.bytes = zeroAt l.bytes (CString.strchr l.bytes 0 blank) := by
  simp only [locate, strchr, string]
  cases hp : CString.strchr (l.touch _).bytes 0 blank with
  | none =>
    have hp : CString.strchr l.bytes 0 blank = none := hp
    rw [hp]
    rfl
  | some p =>
    have hp : CString.strchr l.bytes 0 blank = some p := hp
    rw [hp, zeroAt]
    exact store_natCast _ p 0

/-- The line is cut at a mark, and what follows without leading blanks is used as a string. -/
def cut (mark : Nat) : List UInt8 × LineBuf :=
  let l := l.store mark 0
  let (p, l) := l.skipSpaces (mark + 1)
  l.string p

theorem cut_bytes (mark : Nat) : (l.cut mark).2.bytes = l.bytes.set mark 0 := store_natCast l mark 0

/-- What follows a mark is not touched by the cut. -/
theorem cut_text (mark : Nat) : (l.cut mark).1 = (CString.string l.bytes (mark + 1)).dropWhile isspace := by
  simp only [cut, string, skipSpaces, touch, store_natCast]
  rw [string_skip (by decide), string_set, if_pos (Nat.lt_succ_self mark)]

/-- The line after a cut at a mark, if there is one. -/
def cutAt : Pointer → LineBuf
  | none => l
  | some mark => (l.cut mark).2

theorem cutAt_bytes (mark : Pointer) : (l.cutAt mark).bytes = zeroAt l.bytes mark := by
  cases mark with
  | none => rfl
  | some mark => exact l.cut_bytes mark

/-- The path after `>`. -/
def redirDest (redirChar : Nat) : List UInt8 × LineBuf := l.cut redirChar

/-- The command line of the other terminal, after `|`. -/
def subcommand (pipeChar : Nat) : List UInt8 × LineBuf := l.cut pipeChar

/-- The command line of the terminal in the background: the first blank is put back, and the final `&` and
a blank before it are taken off. -/
def backgroundLine (linebufIndex : Nat) (firstArg : Pointer) : List UInt8 × LineBuf :=
  let l := match firstArg with
    | some p => l.store (p - 1 : Int) blank
    -- `--first_arg` and the store behind it
    | none => l.touch [.null]
  let l := l.store (linebufIndex - 1 : Int) 0
  let (c, l) := l.load (linebufIndex - 2 : Int)
  let l := if c = blank then l.store (linebufIndex - 2 : Int) 0 else l
  l.string 0

end LineBuf

end MikanOS.CommandLine
