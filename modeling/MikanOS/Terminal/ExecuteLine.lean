import MikanOS.Fat.Directory
import MikanOS.Terminal.LineBuffer

/-! # Command lines

`Terminal::ExecuteLine` with the built-in commands, and `PrintToFD` and `ReadDelim` of `file.cpp`. What is
printed, which terminals are started and what is executed is recorded as effects. -/

namespace MikanOS.CommandLine

open Fat

/-- A `FileDescriptor`: one that the terminal was made with, an opened file, or the pipe to a task. -/
inductive Fd where
  | given (i : Nat)
  | file (entry : EntryRef)
  | pipe (taskId : Nat)
  deriving DecidableEq

/-- `files_`. -/
abbrev Files := Fin 3 → Fd

/-- A `PCI` device, as far as `lspci` prints it. -/
structure PciDevice where
  bus : UInt8
  device : UInt8
  function : UInt8
  vendorId : UInt16
  headerType : UInt8
  base : UInt8
  sub : UInt8
  interface : UInt8

/-- What the rest of the kernel answers while a line is executed. -/
structure Kernel where
  /-- The ID of the task that `NewTask` makes for a pipe. -/
  newTask : Nat
  /-- The bytes that reading delivers until a `Read` gives none. -/
  read : Fd → List UInt8
  executeFile : EntryRef → List UInt8 → Option (List UInt8) → WithError Int
  waitFinish : Int
  devices : List PciDevice
  allocatedFrames : Nat
  totalFrames : Nat

/-- What a line does outside of the terminal's own state. -/
inductive Effect where
  /-- `PrintToFD`, with the formatted text. -/
  | printToFD (fd : Fd) (s : List UInt8)
  /-- `clear` on a terminal with a window. -/
  | clear
  /-- A task with a `TerminalDescriptor`; `exit_after_command` is true, and there is no window. -/
  | newTerminal (commandLine : List UInt8) (files : Files)
  | executeFile (entry : EntryRef) (command : List UInt8) (firstArg : Option (List UInt8))
  | finishWrite (pipeFd : Fd)
  | waitFinish (subtaskId : Nat)

/-- The state of a `Terminal` that `ExecuteLine` works on, with the boot volume and what it did so far. -/
structure Shell where
  line : LineBuf
  linebufIndex : Fin kLineMax
  files : Files
  lastExitCode : Int
  vol : Volume
  effects : List Effect

/-! ## Texts -/

/-- `Error::Name`. -/
def errorName : Error → List UInt8
  | .kSuccess => text "kSuccess"
  | .kFull => text "kFull"
  | .kEmpty => text "kEmpty"
  | .kNoEnoughMemory => text "kNoEnoughMemory"
  | .kIndexOutOfRange => text "kIndexOutOfRange"
  | .kHostControllerNotHalted => text "kHostControllerNotHalted"
  | .kInvalidSlotID => text "kInvalidSlotID"
  | .kPortNotConnected => text "kPortNotConnected"
  | .kInvalidEndpointNumber => text "kInvalidEndpointNumber"
  | .kTransferRingNotSet => text "kTransferRingNotSet"
  | .kAlreadyAllocated => text "kAlreadyAllocated"
  | .kNotImplemented => text "kNotImplemented"
  | .kInvalidDescriptor => text "kInvalidDescriptor"
  | .kBufferTooSmall => text "kBufferTooSmall"
  | .kUnknownDevice => text "kUnknownDevice"
  | .kNoCorrespondingSetupStage => text "kNoCorrespondingSetupStage"
  | .kTransferFailed => text "kTransferFailed"
  | .kInvalidPhase => text "kInvalidPhase"
  | .kUnknownXHCISpeedID => text "kUnknownXHCISpeedID"
  | .kNoWaiter => text "kNoWaiter"
  | .kNoPCIMSI => text "kNoPCIMSI"
  | .kUnknownPixelFormat => text "kUnknownPixelFormat"
  | .kNoSuchTask => text "kNoSuchTask"
  | .kInvalidFormat => text "kInvalidFormat"
  | .kFrameTooSmall => text "kFrameTooSmall"
  | .kInvalidFile => text "kInvalidFile"
  | .kIsDirectory => text "kIsDirectory"
  | .kNoSuchEntry => text "kNoSuchEntry"
  | .kFreeTypeError => text "kFreeTypeError"

def newline : UInt8 := 0x0a

/-- `%d`, `%lu` and `%llu` of a number that is not negative. -/
def decimal (n : Nat) : List UInt8 := (Nat.toDigits 10 n).map fun ch => ch.toNat.toUInt8

/-- `%d`. -/
def signed (i : Int) : List UInt8 := if i < 0 then text "-" ++ decimal i.natAbs else decimal i.natAbs

/-- `%02x` and `%04x`. -/
def hex (width n : Nat) : List UInt8 :=
  let digits := (Nat.toDigits 16 n).map fun ch => ch.toNat.toUInt8
  List.replicate (width - digits.length) 0x30 ++ digits

/-- A field of a short name without the blanks behind it, up to a zero. -/
def nameField (bytes : List UInt8) : List UInt8 := (bytes.rdropWhile (· = 0x20)).takeWhile (· ≠ 0)

/-- `FormatName`, with `ReadName`. -/
def formatName (e : DirectoryEntry) : List UInt8 :=
  let base := nameField (e.name.toList.take 8)
  let ext := nameField (e.name.toList.drop 8)
  if ext = [] then base else base ++ Path.dot :: ext

/-! ## `ReadDelim` -/

/-- The loop of `ReadDelim` for at most `n` bytes: what it stores, and what is left to read. -/
def readDelim (delim : UInt8) : (n : Nat) → (input : List UInt8) → List UInt8 × List UInt8
  | 0, input => ([], input)
  | _ + 1, [] => ([], [])
  | n + 1, ch :: input =>
    if ch = delim then ([ch], input)
    else
      let (buf, rest) := readDelim delim n input
      (ch :: buf, rest)

/-- The loop of `cat`: the buffers that `ReadDelim` fills. The first number bounds the turns. -/
def catLoop : (turns : Nat) → (input : List UInt8) → List (List UInt8)
  | 0, _ => []
  | turns + 1, input =>
    let (u8buf, rest) := readDelim newline 1023 input
    if u8buf = [] then [] else u8buf :: catLoop turns rest

namespace Shell

variable (k : Kernel) (t : Shell)

def effect (e : Effect) : Shell := { t with effects := t.effects ++ [e] }

def printToFD (fd : Fd) (s : List UInt8) : Shell := t.effect (.printToFD fd s)

/-- `PrintToFD` for each of the texts. -/
def printAll (fd : Fd) (texts : List (List UInt8)) : Shell :=
  { t with effects := t.effects ++ texts.map (.printToFD fd) }

/-- `FindFile` from the root directory. -/
def findFile (path : Path) : Option (Option EntryRef × Bool) := t.vol.findFile (path.length + 1) path 0

/-- The redirection of the standard output to a path. `ExecuteLine` goes on if the first result is true, and
returns otherwise. -/
def redirectTo (dest : Path) : Option (Bool × Shell) := do
  let (file, postSlash) ← t.findFile dest
  match file with
  | none =>
    let (newFile, vol) ← t.vol.createFile dest
    let t := { t with vol }
    if newFile.error ≠ .kSuccess then
      some (false, t.printToFD (t.files 2)
        (text "failed to create a redirect file: " ++ errorName newFile.error ++ [newline]))
    else
      let entry ← newFile.value
      some (true, { t with files := Function.update t.files 1 (.file entry) })
  | some entry =>
    if (t.vol.entry entry).attr = kDirectory ∨ postSlash then
      some (false, t.printToFD (t.files 2) (text "cannot redirect to a directory\n"))
    else some (true, { t with files := Function.update t.files 1 (.file entry) })

def redirect (redirChar : Pointer) : Option (Bool × Shell) :=
  match redirChar with
  | none => some (true, t)
  | some mark =>
    let (dest, line) := t.line.redirDest mark
    { t with line }.redirectTo dest

/-- The start of the other terminal of a pipe. -/
def startPipe (pipeChar : Pointer) : Option Nat × Shell :=
  match pipeChar with
  | none => (none, t)
  | some mark =>
    let (subcommand, line) := t.line.subcommand mark
    let pipeFd := Fd.pipe k.newTask
    let t := { t with line }.effect
      (.newTerminal subcommand fun i => if i = 0 then pipeFd else t.files i)
    (some k.newTask, { t with files := Function.update t.files 1 pipeFd })

/-- The argument, which is empty if there is none. -/
def argument (firstArg : Pointer) : List UInt8 × Shell :=
  match firstArg with
  | none => ([], t)
  | some p =>
    let (arg, line) := t.line.string p
    (arg, { t with line })

/-! ## The built-in commands -/

def echo (firstArg : Pointer) : Shell :=
  let (arg, t) := t.argument firstArg
  let t := if arg.head? = some 0x24 then
      if arg.tail = text "?" then t.printToFD (t.files 1) (signed t.lastExitCode) else t
    else if firstArg.isSome then t.printToFD (t.files 1) arg
    else t
  t.printToFD (t.files 1) [newline]

def lspci : Shell :=
  t.printAll (t.files 1) (k.devices.map fun dev =>
    hex 2 dev.bus.toNat ++ text ":" ++ hex 2 dev.device.toNat ++ text "." ++
      decimal dev.function.toNat ++ text " vend=" ++ hex 4 dev.vendorId.toNat ++ text " head=" ++
      hex 2 dev.headerType.toNat ++ text " class=" ++ hex 2 dev.base.toNat ++ text "." ++
      hex 2 dev.sub.toNat ++ text "." ++ hex 2 dev.interface.toNat ++ [newline])

/-- The entries that the inner loop of `ListAllEntries` prints in a cluster. -/
def listed (vol : Volume) (dirCluster : Nat) : List DirectoryEntry :=
  (((List.range vol.entriesPerCluster).map fun i => vol.entry ⟨dirCluster, i⟩).takeWhile
    (getElem ·.name 0 name_pos ≠ 0)).filter fun e => getElem e.name 0 name_pos ≠ 0xe5 ∧ e.attr ≠ 0x0f

/-- `ListAllEntries`: the texts that it prints. The first number bounds the clusters. -/
def listAllEntries (vol : Volume) : Nat → Nat → Option (List (List UInt8))
  | 0, _ => none
  | fuel + 1, dirCluster =>
    if dirCluster = kEndOfClusterchain then some []
    else
      let texts := (listed vol dirCluster).map fun e => formatName e ++ [newline]
      if (List.range vol.entriesPerCluster).any fun i =>
          getElem (vol.entry ⟨dirCluster, i⟩).name 0 name_pos = 0 then
        some texts
      else (listAllEntries vol fuel (vol.nextCluster dirCluster)).map (texts ++ ·)

/-- `ls` in the directory with the first cluster `dirCluster`. -/
def list (dirCluster : Nat) : Option Shell :=
  (listAllEntries t.vol (t.vol.fatWords + 1) dirCluster).map (t.printAll (t.files 1))

def ls (firstArg : Pointer) : Option (Int × Shell) :=
  let (arg, t) := t.argument firstArg
  if arg = [] then (t.list t.vol.rootCluster).map (0, ·)
  else do
    let (dir, postSlash) ← t.findFile arg
    match dir with
    | none => some (1, t.printToFD (t.files 2) (text "No such file or directory: " ++ arg ++ [newline]))
    | some r =>
      let dir := t.vol.entry r
      if dir.attr = kDirectory then (t.list dir.firstCluster).map (0, ·)
      else if postSlash then
        some (1, t.printToFD (t.files 2) (formatName dir ++ text " is not a directory\n"))
      else some (0, t.printToFD (t.files 1) (formatName dir ++ [newline]))

/-- `cat` of an opened file. -/
def catFd (fd : Fd) : Shell :=
  let input := k.read fd
  t.printAll (t.files 1) ((catLoop (input.length + 1) input).map fun u8buf => u8buf.takeWhile (· ≠ 0))

def cat (firstArg : Pointer) : Option (Int × Shell) :=
  let (arg, t) := t.argument firstArg
  if arg = [] then some (0, t.catFd k (t.files 0))
  else do
    let (fileEntry, postSlash) ← t.findFile arg
    match fileEntry with
    | none => some (1, t.printToFD (t.files 2) (text "no such file: " ++ arg ++ [newline]))
    | some r =>
      let fileEntry := t.vol.entry r
      if fileEntry.attr ≠ kDirectory ∧ postSlash then
        some (1, t.printToFD (t.files 2) (formatName fileEntry ++ text " is not a directory\n"))
      else if fileEntry.attr = kDirectory then
        some (1, t.printToFD (t.files 2) (formatName fileEntry ++ text " is a directory\n"))
      else some (0, t.catFd k (.file r))

def noterm (firstArg : Pointer) : Shell :=
  let (commandLine, line) := t.line.stringAt firstArg
  { t with line }.effect (.newTerminal commandLine t.files)

def background (firstArg : Pointer) : Shell :=
  let (commandLine, line) := t.line.backgroundLine t.linebufIndex firstArg
  { t with line }.effect (.newTerminal commandLine t.files)

def memstat : Shell :=
  let line name frames := text name ++ decimal frames ++ text " frames (" ++
    decimal (frames * 4096 / 1024 / 1024) ++ text " MiB)\n"
  t.printAll (t.files 1) [line "Phys used : " k.allocatedFrames, line "Phys total: " k.totalFrames]

/-- `FindCommand`, with a bound on its calls. -/
def findCommand (vol : Volume) (command : Path) : Nat → Nat → Option (Option EntryRef)
  | 0, _ => none
  | fuel + 1, dirCluster => do
    let (fileEntry, postSlash) ← vol.findFile (command.length + 1) command dirCluster
    match fileEntry with
    | some r => if (vol.entry r).attr = kDirectory ∨ postSlash then some none else some (some r)
    | none =>
      if dirCluster ≠ 0 ∨ Path.slash ∈ command then some none
      else
        let (appsEntry, _) ← vol.findFile 5 (text "apps") 0
        match appsEntry with
        | none => some none
        | some apps =>
          if (vol.entry apps).attr ≠ kDirectory then some none
          else findCommand vol command fuel (vol.entry apps).firstCluster

/-- The last branch of `ExecuteLine`: `command` names a file. -/
def execute (command : List UInt8) (firstArg : Pointer) : Option (Int × Shell) := do
  let fileEntry ← findCommand t.vol command 2 0
  match fileEntry with
  | none => some (1, t.printToFD (t.files 2) (text "no such command: " ++ command ++ [newline]))
  | some r =>
    let (arg, t) := t.argument firstArg
    let arg := firstArg.map fun _ => arg
    let t := t.effect (.executeFile r command arg)
    let ret := k.executeFile r command arg
    if ret.error ≠ .kSuccess then
      some (-ret.value, t.printToFD (t.files 2)
      (text "failed to exec file: " ++ errorName ret.error ++ [newline]))
    else some (ret.value, t)

/-- The commands that `ExecuteLine` compares with before it looks for a final `&`. -/
def foreground : List (List UInt8) :=
  [text "echo", text "clear", text "lspci", text "ls", text "cat", text "noterm"]

/-- The branches of `ExecuteLine`, with the exit code. -/
def runCommand (firstArg : Pointer) : Option (Int × Shell) :=
  let (command, line) := t.line.string 0
  let t := { t with line }
  if command = text "echo" then some (0, t.echo firstArg)
  else if command = text "clear" then some (0, t.effect .clear)
  else if command = text "lspci" then some (0, t.lspci k)
  else if command = text "ls" then t.ls firstArg
  else if command = text "cat" then t.cat k firstArg
  else if command = text "noterm" then some (0, t.noterm firstArg)
  else
    let (last, line) := t.line.load (t.linebufIndex - 1 : Int)
    let t := { t with line }
    if last = 0x26 then some (0, t.background firstArg)
    else if command = text "memstat" then some (0, t.memstat k)
    else if command ≠ [] then t.execute k command firstArg
    else some (0, t)

/-- The end of a pipe: the exit code is that of the other terminal. -/
def waitPipe (subtaskId : Option Nat) (exitCode : Int) : Int × Shell :=
  match subtaskId with
  | none => (exitCode, t)
  | some id => (k.waitFinish, (t.effect (.finishWrite (.pipe id))).effect (.waitFinish id))

/-- `ExecuteLine`, if it returns. -/
def executeLine : Option Shell := do
  let (marks, line) := t.line.locate
  let t := { t with line }
  let originalStdout := t.files 1
  let (goesOn, t) ← t.redirect marks.redirChar
  if goesOn then
    let (subtaskId, t) := t.startPipe k marks.pipeChar
    let (exitCode, t) ← t.runCommand k marks.firstArg
    let (exitCode, t) := t.waitPipe k subtaskId exitCode
    some { t with
      lastExitCode := exitCode
      files := Function.update t.files 1 originalStdout
      linebufIndex := ⟨0, kLineMax_pos⟩ }
  else some t

/-! ## What the commands print -/

variable {k t} {t' : Shell} {exitCode : Int}

section

variable {firstArg : Pointer} {arg : List UInt8} {texts : List (List UInt8)} {dirCluster : Nat}

/-- There is an argument, and no file of that name. -/
def Missing (t : Shell) (arg : List UInt8) : Prop := arg ≠ [] ∧ ∃ postSlash,
    t.findFile arg = some (none, postSlash)

/-- The file that `cat` reads. -/
def Opens (t : Shell) (arg : List UInt8) (fd : Fd) : Prop :=
  (arg = [] ∧ fd = t.files 0) ∨ arg ≠ [] ∧ ∃ r,
    t.findFile arg = some (some r, false) ∧ (t.vol.entry r).attr ≠ kDirectory ∧ fd = .file r

theorem argument_eq (t : Shell) (firstArg : Pointer) : (t.argument firstArg).2 =
    { t with line := (t.argument firstArg).2.line } := by
  cases firstArg <;> rfl

/-- `echo` prints its argument or the last exit code, and a newline. -/
theorem echo_cases (t : Shell) (firstArg : Pointer) : ∃ texts,
    t.echo firstArg = (t.argument firstArg).2.printAll (t.files 1) texts ∧
      ∀ s ∈ texts, s = (t.argument firstArg).1 ∨ s = signed t.lastExitCode ∨ s = [newline] := by
  rw [argument_eq]
  simp only [echo]
  rw [argument_eq]
  split
  · split
    · exact ⟨[signed t.lastExitCode, [newline]], by simp [printToFD, printAll, effect], by simp⟩
    · exact ⟨[[newline]], rfl, by simp⟩
  · split
    · exact ⟨[(t.argument firstArg).1, [newline]], by simp [printToFD, printAll, effect], by simp⟩
    · exact ⟨[[newline]], rfl, by simp⟩

theorem listAllEntries_line {vol : Volume} {fuel : Nat}
    (h : listAllEntries vol fuel dirCluster = some texts) :
    ∀ s ∈ texts, ∃ e, s = formatName e ++ [newline] := by
  induction fuel generalizing dirCluster texts with
  | zero => cases h
  | succ fuel ih =>
    have hlisted : ∀ s ∈ (listed vol dirCluster).map fun e => formatName e ++ [newline],
        ∃ e, s = formatName e ++ [newline] := by
      intro s hs
      obtain ⟨e, -, rfl⟩ := List.mem_map.mp hs
      exact ⟨e, rfl⟩
    rw [listAllEntries] at h
    split at h
    · cases h
      exact fun s hs => by cases hs
    · simp only at h
      split at h
      · cases h
        exact hlisted
      · obtain ⟨rest, hrest, rfl⟩ := Option.map_eq_some_iff.mp h
        exact fun s hs => (List.mem_append.mp hs).elim (hlisted s) (ih hrest s)

/-- `ls` prints names, or that there is no such file. -/
theorem ls_cases (h : t.ls firstArg = some (exitCode, t')) : ∃ fd texts,
    t' = (t.argument firstArg).2.printAll fd texts ∧
      (t.Missing (t.argument firstArg).1 ∧
          texts = [text "No such file or directory: " ++ (t.argument firstArg).1 ++ [newline]] ∨
        ¬t.Missing (t.argument firstArg).1 ∧ ∀ s ∈ texts, ∃ e,
          s = formatName e ++ [newline] ∨ s = formatName e ++ text " is not a directory\n") := by
  have hlist {dirCluster : Nat} {u : Shell} {code : Int}
      (hu : ((t.argument firstArg).2.list dirCluster).map (0, ·) = some (code, u)) :
      ∃ texts, u = (t.argument firstArg).2.printAll (t.files 1) texts ∧ ∀ s ∈ texts, ∃ e,
        s = formatName e ++ [newline] ∨ s = formatName e ++ text " is not a directory\n" := by
    obtain ⟨u', hu', heq⟩ := Option.map_eq_some_iff.mp hu
    cases heq
    obtain ⟨texts, htexts, rfl⟩ := Option.map_eq_some_iff.mp hu'
    refine ⟨texts, by rw [argument_eq], fun s hs => ?_⟩
    obtain ⟨e, he⟩ := listAllEntries_line htexts s hs
    exact ⟨e, .inl he⟩
  simp only [ls] at h
  split at h
  · rename_i hnil
    obtain ⟨texts, ht', htexts⟩ := hlist h
    exact ⟨_, texts, ht', .inr ⟨fun hm => hm.1 hnil, htexts⟩⟩
  · rename_i hne
    obtain ⟨⟨dir, postSlash⟩, hfind, h⟩ := Option.bind_eq_some_iff.mp h
    have hfind : t.findFile (t.argument firstArg).1 = some (dir, postSlash) := by
      rw [argument_eq] at hfind
      exact hfind
    cases dir with
    | none =>
      cases h
      exact ⟨_, [_], rfl, .inl ⟨⟨hne, postSlash, hfind⟩, rfl⟩⟩
    | some r =>
      have hfound : ¬t.Missing (t.argument firstArg).1 := by
        rintro ⟨-, slash, hnone⟩
        rw [hfind] at hnone
        cases hnone
      simp only at h
      split at h
      · obtain ⟨texts, ht', htexts⟩ := hlist h
        exact ⟨_, texts, ht', .inr ⟨hfound, htexts⟩⟩
      · split at h
        · cases h
          exact ⟨_, [_], rfl, .inr ⟨hfound, fun s hs => ⟨_, .inr (List.mem_singleton.mp hs)⟩⟩⟩
        · cases h
          exact ⟨_, [_], rfl, .inr ⟨hfound, fun s hs => ⟨_, .inl (List.mem_singleton.mp hs)⟩⟩⟩

/-- The texts that `cat` prints for what it reads. -/
def catTexts (input : List UInt8) : List (List UInt8) :=
  (catLoop (input.length + 1) input).map fun u8buf => u8buf.takeWhile (· ≠ 0)

/-- `cat` prints what it reads, or that it cannot. -/
theorem cat_cases (h : t.cat k firstArg = some (exitCode, t')) : ∃ fd texts,
    t' = (t.argument firstArg).2.printAll fd texts ∧
      (t.Missing (t.argument firstArg).1 ∧
          texts = [text "no such file: " ++ (t.argument firstArg).1 ++ [newline]] ∨
        ¬t.Missing (t.argument firstArg).1 ∧
          ((∃ source, t.Opens (t.argument firstArg).1 source ∧ texts = catTexts (k.read source)) ∨
            (∀ source, ¬t.Opens (t.argument firstArg).1 source) ∧ ∀ s ∈ texts, ∃ e,
              s = formatName e ++ text " is not a directory\n" ∨
              s = formatName e ++ text " is a directory\n")) := by
  simp only [cat] at h
  split at h
  · rename_i hnil
    cases h
    refine ⟨_, _, rfl, .inr ⟨fun hm => hm.1 hnil, .inl ⟨_, .inl ⟨hnil, rfl⟩, ?_⟩⟩⟩
    rw [argument_eq]
    rfl
  · rename_i hne
    obtain ⟨⟨fileEntry, postSlash⟩, hfind, h⟩ := Option.bind_eq_some_iff.mp h
    have hfind : t.findFile (t.argument firstArg).1 = some (fileEntry, postSlash) := by
      rw [argument_eq] at hfind
      exact hfind
    cases fileEntry with
    | none =>
      cases h
      exact ⟨_, [_], rfl, .inl ⟨⟨hne, postSlash, hfind⟩, rfl⟩⟩
    | some r =>
      have hfound : ¬t.Missing (t.argument firstArg).1 := by
        rintro ⟨-, slash, hnone⟩
        rw [hfind] at hnone
        cases hnone
      have hvol : (t.argument firstArg).2.vol = t.vol := by rw [argument_eq]
      have hclosed (hbad : (t.vol.entry r).attr = kDirectory ∨ postSlash = true) :
          ∀ source, ¬t.Opens (t.argument firstArg).1 source := by
        rintro source (⟨hnil, -⟩ | ⟨-, r', hr', hattr, -⟩)
        · exact hne hnil
        · rw [hfind] at hr'
          cases hr'
          exact hbad.elim hattr Bool.noConfusion
      simp only [hvol] at h
      split at h
      · rename_i hslash
        cases h
        exact ⟨_, [_], rfl, .inr ⟨hfound, .inr ⟨hclosed (.inr hslash.2), fun s hs =>
          ⟨_, .inl (List.mem_singleton.mp hs)⟩⟩⟩⟩
      · rename_i hslash
        split at h
        · rename_i hdir
          cases h
          exact ⟨_, [_], rfl, .inr ⟨hfound, .inr ⟨hclosed (.inl hdir), fun s hs =>
            ⟨_, .inr (List.mem_singleton.mp hs)⟩⟩⟩⟩
        · rename_i hdir
          cases h
          refine ⟨_, _, rfl, .inr ⟨hfound, .inl ⟨_, .inr ⟨hne, r, ?_, hdir, rfl⟩, rfl⟩⟩⟩
          rw [hfind]
          simpa [hdir] using hslash

end

/-! ## What a command leaves alone -/

/-- The line index and the descriptors stay. -/
structure Keeps (t t' : Shell) : Prop where
  linebufIndex : t'.linebufIndex = t.linebufIndex
  files : t'.files = t.files

namespace Keeps

variable {t t' t'' : Shell}

theorem refl (t : Shell) : Keeps t t := ⟨rfl, rfl⟩

theorem trans (h : Keeps t t') (h' : Keeps t' t'') : Keeps t t'' :=
  ⟨h'.linebufIndex.trans h.linebufIndex, h'.files.trans h.files⟩

end Keeps

section

variable {firstArg : Pointer} {command : List UInt8}

theorem keeps_argument (t : Shell) (firstArg : Pointer) : Keeps t (t.argument firstArg).2 := by
  cases firstArg <;> exact ⟨rfl, rfl⟩

theorem keeps_printAll (t : Shell) (firstArg : Pointer) (fd : Fd) (texts : List (List UInt8)) :
    Keeps t ((t.argument firstArg).2.printAll fd texts) :=
  (keeps_argument t firstArg).trans ⟨rfl, rfl⟩

theorem keeps_echo (t : Shell) (firstArg : Pointer) : Keeps t (t.echo firstArg) := by
  obtain ⟨texts, hecho, -⟩ := echo_cases t firstArg
  rw [hecho]
  exact keeps_printAll ..

theorem keeps_ls (h : t.ls firstArg = some (exitCode, t')) : Keeps t t' := by
  obtain ⟨fd, texts, rfl, -⟩ := ls_cases h
  exact keeps_printAll ..

theorem keeps_cat (h : t.cat k firstArg = some (exitCode, t')) : Keeps t t' := by
  obtain ⟨fd, texts, rfl, -⟩ := cat_cases h
  exact keeps_printAll ..

theorem keeps_execute (h : t.execute k command firstArg = some (exitCode, t')) : Keeps t t' := by
  obtain ⟨fileEntry, -, h⟩ := Option.bind_eq_some_iff.mp h
  cases fileEntry with
  | none =>
    cases h
    exact ⟨rfl, rfl⟩
  | some r =>
    refine (keeps_argument t firstArg).trans ?_
    simp only at h
    split at h <;> cases h <;> exact ⟨rfl, rfl⟩

/-- No command touches the line index or the descriptors. -/
theorem keeps_runCommand (h : t.runCommand k firstArg = some (exitCode, t')) : Keeps t t' := by
  have hline (line : LineBuf) : Keeps t { t with line } := ⟨rfl, rfl⟩
  simp only [runCommand] at h
  split at h
  · cases h
    exact (hline _).trans (keeps_echo _ _)
  split at h
  · cases h
    exact ⟨rfl, rfl⟩
  split at h
  · cases h
    exact ⟨rfl, rfl⟩
  split at h
  · exact (hline _).trans (keeps_ls h)
  split at h
  · exact (hline _).trans (keeps_cat h)
  split at h
  · cases h
    exact ⟨rfl, rfl⟩
  split at h
  · cases h
    exact ⟨rfl, rfl⟩
  split at h
  · cases h
    exact ⟨rfl, rfl⟩
  split at h
  · exact (hline _).trans (keeps_execute h)
  · cases h
    exact ⟨rfl, rfl⟩

end

/-! ## Redirections that fail -/

/-- The pointers of `ExecuteLine`. -/
def firstArg (t : Shell) : Pointer := t.line.locate.1.firstArg
def redirChar (t : Shell) : Pointer := t.line.locate.1.redirChar
def pipeChar (t : Shell) : Pointer := t.line.locate.1.pipeChar

/-- The line with the command cut off. -/
def located (t : Shell) : Shell := { t with line := t.line.locate.2 }

/-- The path that the output is redirected to, if the line has a `>`. -/
def redirPath (t : Shell) : Option Path := t.redirChar.map fun mark => (t.located.line.redirDest mark).1

/-- The path is that of a directory or goes on behind a file, or it names no file and none can be created: it
ends with a slash, or its directory is missing. -/
def CannotRedirect (t : Shell) (dest : Path) : Prop :=
  ∃ file postSlash, t.findFile dest = some (file, postSlash) ∧
    match file with
    | some r => (t.vol.entry r).attr = kDirectory ∨ postSlash = true
    | none => ∃ err, t.vol.parentCluster dest = some (.error err)

/-- The line has a redirection, and to a path for which it fails. -/
def RedirectFails (t : Shell) : Prop := ∃ dest ∈ t.redirPath, CannotRedirect t dest

theorem parentCluster_error {vol : Volume} {path : Path} {err : Error}
    (h : vol.parentCluster path = some (.error err)) : err ≠ .kSuccess := by
  simp only [Volume.parentCluster] at h
  split at h
  · split at h
    · cases h
      decide
    · split at h
      · obtain ⟨⟨parentDir, postSlash⟩, -, h⟩ := Option.bind_eq_some_iff.mp h
        cases parentDir with
        | none =>
          cases h
          decide
        | some r => cases h
      · cases h
  · cases h

/-- `CreateFile` fails where the directory of the file cannot be used. -/
theorem createFile_error_iff {vol vol' : Volume} {path : Path} {file : WithError (Option EntryRef)}
    (h : vol.createFile path = some (file, vol')) :
    file.error ≠ .kSuccess ↔ ∃ err, vol.parentCluster path = some (.error err) := by
  obtain ⟨parent, hparent, h⟩ := Option.bind_eq_some_iff.mp h
  cases parent with
  | error err =>
    cases h
    exact iff_of_true (parentCluster_error hparent) ⟨err, hparent⟩
  | ok dirCluster =>
    have hnone : ¬∃ err, vol.parentCluster path = some (.error err) := by
      rintro ⟨err, herr⟩
      rw [hparent] at herr
      cases herr
    refine iff_of_false (fun hne => hne ?_) hnone
    obtain ⟨⟨dir, vol₁⟩, halloc, h⟩ := Option.bind_eq_some_iff.mp h
    obtain ⟨slot, -, halloc⟩ := Option.bind_eq_some_iff.mp halloc
    cases slot with
    | inl r =>
      cases halloc
      cases h
      rfl
    | inr last =>
      obtain ⟨⟨x, vol₂⟩, -, halloc⟩ := Option.bind_eq_some_iff.mp halloc
      cases halloc
      cases h
      rfl

theorem redirectTo_cases {dest : Path} {goesOn : Bool} (h : t.redirectTo dest = some (goesOn, t')) :
    t'.linebufIndex = t.linebufIndex ∧ (goesOn = false ↔ CannotRedirect t dest) := by
  obtain ⟨⟨file, postSlash⟩, hfind, h⟩ := Option.bind_eq_some_iff.mp h
  simp only [CannotRedirect, hfind, Option.some.injEq, Prod.mk.injEq]
  cases file with
  | none =>
    obtain ⟨⟨newFile, vol⟩, hcreate, h⟩ := Option.bind_eq_some_iff.mp h
    have herror := createFile_error_iff hcreate
    simp only at h
    split at h
    · rename_i herr
      cases h
      exact ⟨rfl, iff_of_true rfl ⟨_, _, ⟨rfl, rfl⟩, herror.mp herr⟩⟩
    · rename_i herr
      obtain ⟨entry, -, h⟩ := Option.bind_eq_some_iff.mp h
      cases h
      refine ⟨rfl, iff_of_false Bool.noConfusion ?_⟩
      rintro ⟨_, _, ⟨rfl, rfl⟩, hparent⟩
      exact herr (herror.mpr hparent)
  | some r =>
    simp only at h
    split at h
    · rename_i hdir
      cases h
      exact ⟨rfl, iff_of_true rfl ⟨_, _, ⟨rfl, rfl⟩, hdir⟩⟩
    · rename_i hdir
      cases h
      refine ⟨rfl, iff_of_false Bool.noConfusion ?_⟩
      rintro ⟨_, _, ⟨rfl, rfl⟩, hbad⟩
      exact hdir hbad

/-- `ExecuteLine` goes on behind a redirection that does not fail. -/
theorem redirect_cases {goesOn : Bool} (h : t.located.redirect t.redirChar = some (goesOn, t')) :
    t'.linebufIndex = t.linebufIndex ∧ (goesOn = false ↔ RedirectFails t) := by
  rw [RedirectFails, redirPath]
  cases hmark : t.redirChar with
  | none =>
    rw [hmark] at h
    cases h
    exact ⟨rfl, iff_of_false Bool.noConfusion fun ⟨dest, hdest, _⟩ => by cases hdest⟩
  | some mark =>
    rw [hmark] at h
    obtain ⟨hindex, hfails⟩ := redirectTo_cases h
    refine ⟨hindex, hfails.trans ?_⟩
    simp only [Option.map_some, Option.mem_some_iff, exists_eq_left']
    exact Iff.rfl

/-- The two ways through `ExecuteLine`. -/
theorem executeLine_cases (h : t.executeLine k = some t') :
    t.located.redirect t.redirChar = some (false, t') ∨
    ∃ t₁ exitCode t₂, t.located.redirect t.redirChar = some (true, t₁) ∧
      (t₁.startPipe k t.pipeChar).2.runCommand k t.firstArg = some (exitCode, t₂) ∧
      t' = { (t₂.waitPipe k (t₁.startPipe k t.pipeChar).1 exitCode).2 with
        lastExitCode := (t₂.waitPipe k (t₁.startPipe k t.pipeChar).1 exitCode).1
        files := Function.update (t₂.waitPipe k (t₁.startPipe k t.pipeChar).1 exitCode).2.files 1 (t.files 1)
        linebufIndex := ⟨0, kLineMax_pos⟩ } := by
  obtain ⟨⟨goesOn, t₁⟩, hredirect, h⟩ := Option.bind_eq_some_iff.mp h
  cases goesOn with
  | false =>
    cases h
    exact .inl hredirect
  | true =>
    obtain ⟨⟨exitCode, t₂⟩, hrun, h⟩ := Option.bind_eq_some_iff.mp h
    exact .inr ⟨t₁, exitCode, t₂, hredirect, hrun, (Option.some.inj h).symm⟩

/-- The line is empty and the standard output is back after a line, unless its redirection fails. -/
theorem executeLine_resets_iff (h : t.executeLine k = some t')
    (hindex : t.redirChar ≠ none → 0 < t.linebufIndex.val) :
    (t'.linebufIndex.val = 0 ∧ t'.files 1 = t.files 1) ↔ ¬RedirectFails t := by
  rcases executeLine_cases h with hredirect | ⟨t₁, exitCode, t₂, hredirect, -, rfl⟩
  · obtain ⟨hindex₁, hfails⟩ := redirect_cases hredirect
    have hf := hfails.mp rfl
    refine iff_of_false (fun hreset => ?_) fun hnot => hnot hf
    obtain ⟨dest, hdest, -⟩ := hf
    have hmark : t.redirChar ≠ none := fun hnone => by
      rw [redirPath, hnone] at hdest
      cases hdest
    have hpos := hindex hmark
    rw [← hindex₁, hreset.1] at hpos
    exact Nat.lt_irrefl 0 hpos
  · refine iff_of_true ⟨rfl, ?_⟩ fun hf => ?_
    · simp only [Function.update_self]
    · cases (redirect_cases hredirect).2.mpr hf

end Shell

end MikanOS.CommandLine
