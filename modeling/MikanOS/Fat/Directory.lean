import MikanOS.Error
import MikanOS.Fat.FileDescriptor

/-! # Directories

Looking up a path and creating a file (`FindFile`, `AllocateEntry`, `CreateFile` of `fat.cpp`). A path
is the bytes of a C string without the final zero. -/

namespace MikanOS.Fat

abbrev Path := List UInt8

namespace Path

def slash : UInt8 := 0x2f
def dot : UInt8 := 0x2e

end Path

/-- `toupper` of the C locale. -/
def toupper (ch : UInt8) : UInt8 := if 0x61 ≤ ch ∧ ch ≤ 0x7a then ch - 0x20 else ch

/-- `NextPathElement`: what follows the first slash, whether there is one, and the element before it. -/
def NextPathElement (path : Path) : Option Path × Bool × Path :=
  if Path.slash ∈ path then
    (some (path.dropWhile (· ≠ Path.slash)).tail, true, path.takeWhile (· ≠ Path.slash))
  else (none, false, path)

/-- The loop of `NameIsEqual`: the name goes to the places from `i83` on, and behind a dot to those of
the extension. -/
def name83 : Path → Nat → Vector UInt8 11 → Vector UInt8 11
  | [], _, acc => acc
  | ch :: name, i83, acc =>
    if h : i83 < 11 then
      if ch = Path.dot then name83 name 8 acc
      else name83 name (i83 + 1) (acc.set i83 (toupper ch))
    else acc

def NameIsEqual (e : DirectoryEntry) (name : Path) : Prop :=
  e.name = name83 name 0 (.replicate 11 0x20)

instance (e : DirectoryEntry) (name : Path) : Decidable (NameIsEqual e name) :=
  inferInstanceAs (Decidable (_ = _))

/-- `SetFileName`: the first 8 bytes before the last dot and the first 3 behind it. -/
def SetFileName (e : DirectoryEntry) (name : Path) : DirectoryEntry :=
  let base := if Path.dot ∈ name then
    (name.reverse.dropWhile (· ≠ Path.dot)).tail.reverse else name
  let ext := if Path.dot ∈ name then (name.reverse.takeWhile (· ≠ Path.dot)).reverse else []
  { e with
    name := .ofFn fun i =>
      toupper (if i.val < 8 then base.getD i 0x20 else ext.getD (i - 8) 0x20) }

theorem name_pos : 0 < 11 := by decide

/-- `Attribute::kDirectory`. -/
def kDirectory : UInt8 := 0x10

namespace Volume

variable (vol : Volume)

/-- `bytes_per_cluster / sizeof(DirectoryEntry)`. -/
def entriesPerCluster : Nat := vol.bytesPerCluster / 32

/-- The loop of `FindFile` over the clusters of a directory: the entry with the name, if there is one
before the end of the directory. -/
def searchDirectory (pathElem : Path) : Nat → Nat → Option (Option EntryRef)
  | 0, _ => none
  | fuel + 1, directoryCluster =>
    if directoryCluster = kEndOfClusterchain then some none
    else
      let hit := (List.range vol.entriesPerCluster).find? fun i =>
        let e := vol.entry ⟨directoryCluster, i⟩
        e.name[0] = 0 ∨ NameIsEqual e pathElem
      match hit with
      | none => searchDirectory pathElem fuel (vol.nextCluster directoryCluster)
      | some i =>
        if (vol.entry ⟨directoryCluster, i⟩).name[0] = 0 then some none
        else some (some ⟨directoryCluster, i⟩)

/-- `FindFile`, if it returns: the entry, and whether a slash follows its name. The first number bounds
the elements of the path. -/
def findFile : Nat → Path → Nat → Option (Option EntryRef × Bool)
  | 0, _, _ => none
  | fuel + 1, path, directoryCluster => do
    let absolute := path.head? = some Path.slash
    let directoryCluster :=
      if absolute ∨ directoryCluster = 0 then vol.rootCluster else directoryCluster
    let (nextPath, postSlash, pathElem) := NextPathElement (if absolute then path.tail else path)
    let pathLast := nextPath.getD [] = []
    let found ← vol.searchDirectory pathElem (vol.fatWords + 1) directoryCluster
    match found with
    | none => some (none, postSlash)
    | some r =>
      if (vol.entry r).attr = kDirectory ∧ ¬ pathLast then
        findFile fuel (nextPath.getD []) (vol.entry r).firstCluster
      else some (some r, postSlash)

/-- The loop of `AllocateEntry`: the first unused entry of the directory, or its last cluster. -/
def findSlot : Nat → Nat → Option (EntryRef ⊕ Nat)
  | 0, _ => none
  | fuel + 1, dirCluster =>
    let slot := (List.range vol.entriesPerCluster).find? fun i =>
      let e := vol.entry ⟨dirCluster, i⟩
      e.name[0] = 0 ∨ e.name[0] = 0xe5
    match slot with
    | some i => some (.inl ⟨dirCluster, i⟩)
    | none =>
      if vol.nextCluster dirCluster = kEndOfClusterchain then some (.inr dirCluster)
      else findSlot fuel (vol.nextCluster dirCluster)

/-- `memset` of a whole directory cluster. -/
def clearDirectory (cluster : Nat) : Volume :=
  { vol.setData cluster fun _ => 0 with
    entry := fun r => if r.cluster = cluster then ⟨.replicate 11 0, 0, 0, 0, 0⟩ else vol.entry r }

/-- `AllocateEntry`, if it returns. -/
def allocateEntry (dirCluster : Nat) : Option (Option EntryRef × Volume) := do
  let slot ← vol.findSlot (vol.fatWords + 1) dirCluster
  match slot with
  | .inl r => some (some r, vol)
  | .inr dirCluster =>
    let (dirCluster, vol) ← vol.extendCluster dirCluster 1
    some (some ⟨dirCluster, 0⟩, vol.clearDirectory dirCluster)

/-- The path of the directory and the file name of `CreateFile`: what is before and behind the last
slash. -/
def splitPath (path : Path) : Path × Path :=
  ((path.reverse.dropWhile (· ≠ Path.slash)).tail.reverse,
    (path.reverse.takeWhile (· ≠ Path.slash)).reverse)

/-- The cluster of the directory in which `CreateFile` makes the file, or the error it ends with. -/
def parentCluster (path : Path) : Option (Except Error Nat) :=
  if Path.slash ∈ path then
    let (parentDirName, filename) := splitPath path
    if filename = [] then some (.error .kIsDirectory)
    else if parentDirName ≠ [] then do
      let (parentDir, _) ← vol.findFile (parentDirName.length + 1) parentDirName 0
      match parentDir with
      | none => some (.error .kNoSuchEntry)
      | some r => some (.ok (vol.entry r).firstCluster)
    else some (.ok vol.rootCluster)
  else some (.ok vol.rootCluster)

/-- `CreateFile`, if it returns. -/
def createFile (path : Path) : Option (WithError (Option EntryRef) × Volume) := do
  let parent ← vol.parentCluster path
  match parent with
  | .error err => some (⟨none, err⟩, vol)
  | .ok parentDirCluster =>
    let (dir, vol) ← vol.allocateEntry parentDirCluster
    match dir with
    | none => some (⟨none, .kNoEnoughMemory⟩, vol)
    | some r =>
      let e := SetFileName (vol.entry r) (splitPath path).2
      some (⟨some r, .kSuccess⟩, vol.setEntry r { e with fileSize := 0 })

end Volume

/-- The `errno` values that `OpenFile` returns for a file that cannot be created. -/
inductive Errno where
  | ok | EISDIR | ENOENT | ENOSPC
  deriving DecidableEq

/-- `CreateFile` of `syscall.cpp`: the entry and the error number for the application. -/
def Errno.ofCreateFile (file : WithError (Option EntryRef)) : Option EntryRef × Errno :=
  match file.error with
  | .kIsDirectory => (file.value, .EISDIR)
  | .kNoSuchEntry => (file.value, .ENOENT)
  | .kNoEnoughMemory => (file.value, .ENOSPC)
  | _ => (file.value, .ok)

end MikanOS.Fat
