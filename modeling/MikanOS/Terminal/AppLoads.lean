import MikanOS.Fat.Directory
import MikanOS.Library.Transition
import MikanOS.Terminal.LoadElf

/-! # The cache of loaded applications

`LoadApp` of `terminal.cpp` loads an application from its file once and keeps what it has found in
`app_loads`, under the address of the directory entry. Here an address space is the contents of the
application half, and whether there is memory for it is left open. -/

namespace MikanOS.Elf

open FlatMemory Fat Transition.System

/-- `AppLoadInfo`, with what the application half holds under its page maps. -/
structure AppLoadInfo where
  vaddrEnd : Nat
  entry : Nat
  image : FlatMemory.Memory

def e_entry (m : FlatMemory.Memory) (ehdr : Nat) : Nat := load m (ehdr + 24) 8

/-- `e_ident` begins with `"\x7f" "ELF"`. -/
def HasMagic (m : FlatMemory.Memory) (ehdr : Nat) : Prop := load m ehdr 4 = 0x464c457f

instance (m : FlatMemory.Memory) (ehdr : Nat) : Decidable (HasMagic m ehdr) := inferInstanceAs (Decidable (_ = _))

/-- A new address space, with a file in the buffer. What lies around the buffer is `heap`. -/
def bufferMemory (heap : FlatMemory.Memory) (fileBuf len : Nat) (contents : Nat → UInt8) : FlatMemory.Memory := fun a =>
  if applicationBase ≤ a then 0
  else if fileBuf ≤ a ∧ a < fileBuf + len then contents (a - fileBuf)
  else heap a

/-- The part of `LoadApp` that makes an `AppLoadInfo` of the file in the buffer. -/
def loadBuffer (heap : FlatMemory.Memory) (fileBuf : Nat) (setupPageMaps : Nat → Nat → Error) (len : Nat)
    (contents : Nat → UInt8) : Except Error AppLoadInfo :=
  let m := bufferMemory heap fileBuf len contents
  if ¬HasMagic m fileBuf then .error .kInvalidFile
  else
    let loaded := LoadELF m fileBuf setupPageMaps
    if loaded.result.error = .kSuccess then
      .ok {
        vaddrEnd := loaded.result.value
        entry := e_entry loaded.memory fileBuf
        image := fun a => if applicationBase ≤ a then loaded.memory a else 0 }
    else .error loaded.result.error

/-- `LoadFile` of a whole file into a buffer of its size. -/
def fileContents (vol : Volume) (r : EntryRef) : Option (Nat × (Nat → UInt8)) :=
  let len := (vol.entry r).fileSize
  (FileDescriptor.read vol { fatEntry := r } (fun _ => 0) len).map fun (_, buf, _) => (len, buf)

/-- What `LoadApp` makes of the file of a directory entry. -/
def loadFromFile (heap : FlatMemory.Memory) (fileBuf : Nat) (setupPageMaps : Nat → Nat → Error) (vol : Volume)
    (r : EntryRef) : Option (Except Error AppLoadInfo) :=
  (fileContents vol r).map fun (len, contents) => loadBuffer heap fileBuf setupPageMaps len contents

/-- The volume and `app_loads`. -/
structure AppLoads where
  vol : Volume
  appLoads : EntryRef → Option AppLoadInfo

namespace AppLoads

variable (heap : FlatMemory.Memory) (fileBuf : Nat) (s : AppLoads)

/-- `LoadApp`, with what its first `SetupPML4` and the calls of `SetupPageMaps` return. What goes wrong
afterwards ends the execution, but leaves `app_loads` as it is. -/
def loadApp (r : EntryRef) (setupPML4 : Error) (setupPageMaps : Nat → Nat → Error) :
    Option (Except Error AppLoadInfo × AppLoads) :=
  if setupPML4 ≠ .kSuccess then some (.error setupPML4, s)
  else
    match s.appLoads r with
    | some info => some (.ok info, s)
    | none => (loadFromFile heap fileBuf setupPageMaps s.vol r).map fun
      | .error err => (.error err, s)
      | .ok info => (.ok info, { s with appLoads := Function.update s.appLoads r (some info) })

/-- `storeShared` is a store that the kernel makes for an application to a page that the application
still shares with the cached image, which the page maps do not keep it from. -/
inductive Event where
  | createFile (path : Path)
  | write (fd : FileDescriptor) (buf : Nat → UInt8) (len : Nat)
  | executeFile (r : EntryRef) (setupPML4 : Error) (setupPageMaps : Nat → Nat → Error)
  | storeShared (r : EntryRef) (addr : Nat) (b : UInt8)

def step : Event → Option AppLoads
  | .createFile path => (s.vol.createFile path).map fun (_, vol) => { s with vol }
  | .write fd buf len => (FileDescriptor.write s.vol fd buf len).map fun (_, vol, _) => { s with vol }
  | .executeFile r setupPML4 setupPageMaps =>
    (s.loadApp heap fileBuf r setupPML4 setupPageMaps).map (·.2)
  | .storeShared r addr b => (s.appLoads r).map fun info =>
    let info := { info with image := Function.update info.image addr b }
    { s with appLoads := Function.update s.appLoads r (some info) }

def system : Transition.System AppLoads Event := ⟨step heap fileBuf⟩

/-- An execution that finds its entry in `app_loads` uses what it would load from the file. -/
def Agrees : Prop :=
  ∀ r setupPML4 setupPageMaps used s', s.appLoads r ≠ none →
    s.loadApp heap fileBuf r setupPML4 setupPageMaps = some (.ok used, s') →
    loadFromFile heap fileBuf (fun _ _ => .kSuccess) s.vol r = some (.ok used)

/-- The files of the entries in `app_loads` are as long in `vol` as they are now, with the same bytes. -/
def SameFiles (vol : Volume) : Prop :=
  ∀ r, s.appLoads r ≠ none → fileContents vol r = fileContents s.vol r

/-- Files in `app_loads` are not changed, and neither are the images. -/
def Keeps : Event → Prop
  | .createFile path => ∀ out, s.vol.createFile path = some out → s.SameFiles out.2
  | .write fd buf len => ∀ out, FileDescriptor.write s.vol fd buf len = some out → s.SameFiles out.2.1
  | .executeFile .. => True
  | .storeShared r addr b => ∀ info, s.appLoads r = some info → info.image addr = b

end AppLoads

/-! ## Loading with enough memory -/

variable {m : FlatMemory.Memory} {ehdr i phdr fuel lastAddr : Nat} {setupPageMaps : Nat → Nat → Error}

/-- Where all page maps could be set up, nothing would have been different with more memory. -/
theorem copyLoop_of_success
    (hok : (copyLoop ehdr setupPageMaps phdr fuel i m lastAddr).result.error = .kSuccess) :
    copyLoop ehdr (fun _ _ => .kSuccess) phdr fuel i m lastAddr =
      copyLoop ehdr setupPageMaps phdr fuel i m lastAddr := by
  induction fuel generalizing i m lastAddr with
  | zero => rfl
  | succ fuel ih =>
    rw [copyLoop] at hok
    rw [copyLoop, copyLoop]
    split at hok
    · split at hok
      · rename_i hlt hload
        rw [if_pos hlt, if_pos hlt, if_pos hload, if_pos hload, ih hok]
      · rename_i hlt hload
        rw [if_pos hlt, if_pos hlt, if_neg hload, if_neg hload]
        dsimp only at hok ⊢
        split at hok
        · rename_i herr
          exact absurd hok herr
        · rename_i herr
          rw [if_neg herr, if_neg (fun h => h rfl), ih hok]
    · rename_i hlt
      rw [if_neg hlt, if_neg hlt]

theorem LoadELF_of_success (hok : (LoadELF m ehdr setupPageMaps).result.error = .kSuccess) :
    LoadELF m ehdr (fun _ _ => .kSuccess) = LoadELF m ehdr setupPageMaps := by
  rw [LoadELF] at hok
  rw [LoadELF, LoadELF]
  split at hok
  · cases hok
  · rename_i htype
    rw [if_neg htype, if_neg htype]
    dsimp only at hok ⊢
    split at hok
    · cases hok
    · rename_i haddr
      rw [if_neg haddr, if_neg haddr, CopyLoadSegments, CopyLoadSegments, copyLoop_of_success hok]

variable {heap : FlatMemory.Memory} {fileBuf len : Nat} {contents : Nat → UInt8} {info : AppLoadInfo} {vol : Volume}
  {r : EntryRef}

theorem loadBuffer_of_ok (h : loadBuffer heap fileBuf setupPageMaps len contents = .ok info) :
    loadBuffer heap fileBuf (fun _ _ => .kSuccess) len contents = .ok info := by
  rw [loadBuffer] at h ⊢
  dsimp only at h ⊢
  split at h
  · cases h
  · rename_i hmagic
    rw [if_neg hmagic]
    split at h
    · rename_i hok
      rw [LoadELF_of_success hok, if_pos hok]
      exact h
    · cases h

theorem loadFromFile_of_ok (h : loadFromFile heap fileBuf setupPageMaps vol r = some (.ok info)) :
    loadFromFile heap fileBuf (fun _ _ => .kSuccess) vol r = some (.ok info) := by
  rw [loadFromFile, Option.map_eq_some_iff] at h
  obtain ⟨⟨len, contents⟩, hfile, hload⟩ := h
  rw [loadFromFile, hfile, Option.map_some]
  exact congrArg some (loadBuffer_of_ok hload)

/-! ## Runs that leave the files alone -/

namespace AppLoads

variable {s s' : AppLoads}

/-- What is in `app_loads` is what is in the files. -/
def Fresh (heap : FlatMemory.Memory) (fileBuf : Nat) (s : AppLoads) : Prop :=
  ∀ r info, s.appLoads r = some info →
    loadFromFile heap fileBuf (fun _ _ => .kSuccess) s.vol r = some (.ok info)

theorem Fresh.agrees (H : Fresh heap fileBuf s) : s.Agrees heap fileBuf := by
  intro r setupPML4 setupPageMaps used s' hcached h
  obtain ⟨info, hinfo⟩ := Option.ne_none_iff_exists'.mp hcached
  rw [loadApp, hinfo] at h
  split at h
  · cases h
  · cases h
    exact H r _ hinfo

theorem Fresh.sameFiles (H : Fresh heap fileBuf s) (hsame : s.SameFiles vol) :
    Fresh heap fileBuf { s with vol } := by
  intro r info hinfo
  have hcached : s.appLoads r ≠ none := Option.ne_none_iff_exists'.mpr ⟨info, hinfo⟩
  rw [loadFromFile, hsame r hcached]
  exact H r info hinfo

/-- Another entry of `app_loads`, as the file has it. -/
theorem Fresh.insert (H : Fresh heap fileBuf s)
    (hload : loadFromFile heap fileBuf (fun _ _ => .kSuccess) s.vol r = some (.ok info)) :
    Fresh heap fileBuf { s with appLoads := Function.update s.appLoads r (some info) } := by
  intro r' info' hinfo'
  dsimp only at hinfo' ⊢
  by_cases hr : r' = r
  · subst hr
    rw [Function.update_self] at hinfo'
    cases hinfo'
    exact hload
  · rw [Function.update_of_ne hr] at hinfo'
    exact H r' info' hinfo'

theorem Fresh.loadApp (H : Fresh heap fileBuf s) {setupPML4 : Error} {used : Except Error AppLoadInfo}
    (h : s.loadApp heap fileBuf r setupPML4 setupPageMaps = some (used, s')) : Fresh heap fileBuf s' := by
  rw [AppLoads.loadApp] at h
  split at h
  · cases h
    exact H
  · split at h
    · cases h
      exact H
    · obtain ⟨loaded, hload, h⟩ := Option.map_eq_some_iff.mp h
      cases loaded with
      | error err =>
        cases h
        exact H
      | ok info =>
        cases h
        exact H.insert (loadFromFile_of_ok hload)

theorem Fresh.step (H : Fresh heap fileBuf s) {e : Event} (hkeeps : s.Keeps e)
    (h : s.step heap fileBuf e = some s') : Fresh heap fileBuf s' := by
  cases e with
  | createFile path =>
    obtain ⟨out, hout, rfl⟩ := Option.map_eq_some_iff.mp h
    exact H.sameFiles (hkeeps out hout)
  | write fd buf len =>
    obtain ⟨out, hout, rfl⟩ := Option.map_eq_some_iff.mp h
    exact H.sameFiles (hkeeps out hout)
  | executeFile r setupPML4 setupPageMaps =>
    obtain ⟨out, hout, rfl⟩ := Option.map_eq_some_iff.mp h
    exact H.loadApp hout
  | storeShared r addr b =>
    obtain ⟨info, hinfo, rfl⟩ := Option.map_eq_some_iff.mp h
    have hsame : { info with image := Function.update info.image addr b } = info := by
      rw [← hkeeps info hinfo, Function.update_eq_self]
    dsimp only
    rw [hsame]
    exact H.insert (H r info hinfo)

/-- An executable of 120 bytes, all of which are loaded. -/
def application : List UInt8 :=
  [0x7f, 0x45, 0x4c, 0x46] ++ .replicate 12 0 ++ littleEndian 2 ET_EXEC ++ .replicate 6 0 ++
    littleEndian 8 0xffff800000000078 ++ littleEndian 8 64 ++ .replicate 16 0 ++ littleEndian 2 1 ++
    .replicate 6 0 ++ loadHeader 0 0xffff800000000000 120 120

/-- The files of the root directory are the application and an empty one. -/
def appEntry : EntryRef := ⟨2, 0⟩
def textEntry : EntryRef := ⟨2, 1⟩

def appVolume : Volume where
  bytesPerCluster := 512
  rootCluster := 2
  fatWords := 128
  fat := fun c => if c = 2 ∨ c = 3 then kEndOfClusterchain else 0
  data := fun c i => if c = 3 then application.getD i 0 else 0
  entry := fun r =>
    if r = appEntry then ⟨.replicate 11 0x41, 0x20, 0, 3, 120⟩
    else if r = textEntry then ⟨.replicate 11 0x42, 0x20, 0, 0, 0⟩
    else ⟨.replicate 11 0, 0, 0, 0, 0⟩

def text : Nat → UInt8 := fun i => [0x74, 0x65, 0x78, 0x74].getD i 0

/-- The execution of the application, and a text that is written to a file. -/
def writeEvents (r : EntryRef) : List Event :=
  [.executeFile appEntry .kSuccess fun _ _ => .kSuccess, .write { fatEntry := r } text 4]

/-- The system with zeros around the file buffer. -/
def appSystem : Transition.System AppLoads Event := system (fun _ => 0) 0x200000

theorem loadApp_appEntry {t : AppLoads}
    (h : step (fun _ => 0) 0x200000 ⟨appVolume, fun _ => none⟩
      (.executeFile appEntry .kSuccess fun _ _ => .kSuccess) = some t) :
    t.vol = appVolume ∧ ∀ r, t.appLoads r ≠ none → r = appEntry := by
  rw [step] at h
  obtain ⟨⟨used, t⟩, hload, rfl⟩ := Option.map_eq_some_iff.mp h
  rw [AppLoads.loadApp, if_neg (fun h => h rfl)] at hload
  obtain ⟨loaded, -, hload⟩ := Option.map_eq_some_iff.mp hload
  cases loaded with
  | error err =>
    cases hload
    exact ⟨rfl, fun r h => absurd rfl h⟩
  | ok info =>
    cases hload
    refine ⟨rfl, fun r h => ?_⟩
    by_contra hne
    exact h (Function.update_of_ne hne ..)

/-- Writing the text to its own file leaves the application as it is. -/
theorem fileContents_write_text :
    (FileDescriptor.write appVolume { fatEntry := textEntry } text 4).bind
      (fun out => fileContents out.2.1 appEntry) = fileContents appVolume appEntry := rfl

end AppLoads

end MikanOS.Elf
