import MikanOS.Fat.FileDescriptor
import MikanOS.Library.Stateful
import MikanOS.Paging.ExecuteFile
import MikanOS.Paging.Takes

/-! # Starting an application

`Terminal::ExecuteFile` up to `CallApp`, with all of `LoadApp`. The kernel reads the file buffer and
writes the segments by way of its page maps; a page fault of its own that the handler refuses stops the
kernel. What the terminal prints is left out. -/

namespace MikanOS.Terminal

open Fat LinearAddress4Level Stateful

def PT_LOAD : Nat := 1
def ET_EXEC : Nat := 2

/-- `AppLoadInfo`. -/
structure AppLoadInfo where
  vaddrEnd : Nat
  entry : Nat
  pml4 : Nat
  deriving DecidableEq

/-- What the start of an application works on, `contextCR3` the `cr3` of `task.Context()` and `files` the
files of the task. -/
structure State (F : Type) where
  machine : Machine
  contextCR3 : Nat
  files : List F
  appLoads : EntryRef → Option AppLoadInfo

variable {F : Type}

/-- A part of the kernel that may not return. -/
abbrev Kernel (F : Type) := StateT (State F) Option

/-- A function of the paging code. -/
def paging (f : Machine → α × Machine) : Kernel F α := fun s =>
  some ((f s.machine).1, { s with machine := (f s.machine).2 })

/-! ## Memory accesses of the kernel -/

/-- The frame at an address that the kernel accesses, after a page fault if there is no page. -/
def frameAt (task : PagingTask) (addr : LinearAddress4Level) (rw : Bool) : Kernel F Nat := do
  let s ← get
  if addr.Canonical then
    match s.machine.translate addr with
    | some t => pure t.frame
    | none =>
      let err ← paging fun m => m.handlePageFault task (pageFaultCode false rw false) addr
      if err = .kSuccess then
        let s ← get
        liftM ((s.machine.translate addr).map (·.frame))
      else failure
  else failure

def loadByte (task : PagingTask) (a : Nat) : Kernel F UInt8 := do
  let addr := ofValue (a % 2 ^ 64)
  let f ← frameAt task addr false
  let s ← get
  pure (s.machine.mem.byte f addr.offset)

def storeByte (task : PagingTask) (a : Nat) (b : UInt8) : Kernel F Unit := do
  let addr := ofValue (a % 2 ^ 64)
  let f ← frameAt task addr true
  paging fun m => ((), { m with mem := m.mem.setByteAt f addr.offset b })

/-- A little-endian number of `n` bytes. -/
def load (task : PagingTask) (a : Nat) : Nat → Kernel F Nat
  | 0 => pure 0
  | n + 1 => do
    let b ← loadByte task a
    let rest ← load task (a + 1) n
    pure (b.toNat + 256 * rest)

def storeBytes (task : PagingTask) : (a : Nat) → List UInt8 → Kernel F Unit
  | _, [] => pure ()
  | a, b :: bytes => do
    storeByte task a b
    storeBytes task (a + 1) bytes

def memcpy (task : PagingTask) (dst src : Nat) : Nat → Kernel F Unit
  | 0 => pure ()
  | n + 1 => do
    let b ← loadByte task src
    storeByte task dst b
    memcpy task (dst + 1) (src + 1) n

def memset (task : PagingTask) (dst : Nat) (b : UInt8) : Nat → Kernel F Unit
  | 0 => pure ()
  | n + 1 => do
    storeByte task dst b
    memset task (dst + 1) b n

/-! ## `LoadELF` -/

/-- `GetProgramHeader`. -/
def getProgramHeader (task : PagingTask) (ehdr : Nat) : Kernel F Nat := do
  let phoff ← load task (ehdr + 32) 8
  pure ((ehdr + phoff) % 2 ^ 64)

/-- The loop of `GetFirstLoadAddress`, with a bound on its turns; `e_phnum` has 16 bits. -/
def firstLoadAddress (task : PagingTask) (ehdr phdr : Nat) : (turns i : Nat) → Kernel F Nat
  | 0, _ => pure 0
  | turns + 1, i => do
    let phnum ← load task (ehdr + 56) 2
    if i < phnum then
      let type ← load task (phdr + 56 * i) 4
      if type ≠ PT_LOAD then firstLoadAddress task ehdr phdr turns (i + 1)
      else load task (phdr + 56 * i + 16) 8
    else pure 0

/-- The loop of `CopyLoadSegments`, with a bound on its turns. -/
def copyLoop (task : PagingTask) (ehdr phdr : Nat) :
    (turns i lastAddr : Nat) → Kernel F (WithError Nat)
  | 0, _, lastAddr => pure ⟨lastAddr, .kSuccess⟩
  | turns + 1, i, lastAddr => do
    let phnum ← load task (ehdr + 56) 2
    if i < phnum then
      let type ← load task (phdr + 56 * i) 4
      if type ≠ PT_LOAD then copyLoop task ehdr phdr turns (i + 1) lastAddr
      else
        let vaddr ← load task (phdr + 56 * i + 16) 8
        let memsz ← load task (phdr + 56 * i + 40) 8
        let lastAddr := max lastAddr ((vaddr + memsz) % 2 ^ 64)
        let err ← paging fun m =>
          m.setupPageMaps (ofValue vaddr) ((memsz + 4095) % 2 ^ 64 / 4096) false
        if err ≠ .kSuccess then pure ⟨lastAddr, err⟩
        else
          let offset ← load task (phdr + 56 * i + 8) 8
          let filesz ← load task (phdr + 56 * i + 32) 8
          memcpy task vaddr (ehdr + offset) filesz
          let memsz ← load task (phdr + 56 * i + 40) 8
          memset task (vaddr + filesz) 0 ((memsz + 2 ^ 64 - filesz) % 2 ^ 64)
          copyLoop task ehdr phdr turns (i + 1) lastAddr
    else pure ⟨lastAddr, .kSuccess⟩

/-- `LoadELF`. -/
def loadELF (task : PagingTask) (ehdr : Nat) : Kernel F (WithError Nat) := do
  let type ← load task (ehdr + 16) 2
  if type ≠ ET_EXEC then pure ⟨0, .kInvalidFormat⟩
  else
    let phdr ← getProgramHeader task ehdr
    let addrFirst ← firstLoadAddress task ehdr phdr (2 ^ 16) 0
    if addrFirst < 0xffff800000000000 then pure ⟨0, .kInvalidFormat⟩
    else
      let phdr ← getProgramHeader task ehdr
      copyLoop task ehdr phdr (2 ^ 16) 0 0

/-! ## `LoadApp` -/

/-- `SetupPML4`. -/
def setupPML4 : Kernel F (WithError Nat) := do
  let pml4 ← paging Machine.setupPML4
  if pml4.error = .kSuccess then
    modify fun s => { s with contextCR3 := pml4.value }
    pure pml4
  else pure pml4

/-- The end of `LoadApp`: the pages of `src` are shared with the new page maps. -/
def shareImage (appLoad : AppLoadInfo) (pml4 src : Nat) : Kernel F (WithError AppLoadInfo) := do
  let err ← paging (Machine.copyPageMaps 4 pml4 src 256)
  pure ⟨{ appLoad with pml4 }, err⟩

/-- `LoadApp` for an entry that is not in `app_loads`, with the file buffer at `fileBuf`. -/
def loadAppFile (vol : Volume) (task : PagingTask) (fileBuf : Nat) (r : EntryRef) (tempPML4 : Nat) :
    Kernel F (WithError AppLoadInfo) := do
  let len := (vol.entry r).fileSize
  let (_, file, _) ← liftM (FileDescriptor.read vol { fatEntry := r } (fun _ => 0) len)
  storeBytes task fileBuf ((List.range len).map file)
  let ident ← load task fileBuf 4
  -- the bytes of "\x7f" "ELF"
  if ident ≠ 0x464c457f then pure ⟨⟨0, 0, 0⟩, .kInvalidFile⟩
  else
    let lastAddr ← loadELF task fileBuf
    if lastAddr.error ≠ .kSuccess then pure ⟨⟨0, 0, 0⟩, lastAddr.error⟩
    else
      let entry ← load task (fileBuf + 24) 8
      let appLoad : AppLoadInfo := ⟨lastAddr.value, entry, tempPML4⟩
      modify fun s => { s with appLoads := Function.update s.appLoads r (some appLoad) }
      let pml4 ← setupPML4
      if pml4.error ≠ .kSuccess then pure ⟨appLoad, pml4.error⟩
      else shareImage appLoad pml4.value tempPML4

def loadApp (vol : Volume) (task : PagingTask) (fileBuf : Nat) (r : EntryRef) :
    Kernel F (WithError AppLoadInfo) := do
  let tempPML4 ← setupPML4
  if tempPML4.error ≠ .kSuccess then pure ⟨⟨0, 0, 0⟩, tempPML4.error⟩
  else
    let s ← get
    match s.appLoads r with
    | some appLoad => shareImage appLoad tempPML4.value appLoad.pml4
    | none => loadAppFile vol task fileBuf r tempPML4.value

/-! ## `ExecuteFile` -/

/-- `isspace` of the C locale. -/
def isspace (ch : UInt8) : Bool := ch = 0x20 || (0x09 ≤ ch && ch ≤ 0x0d)

/-- The words of the second part of `MakeArgVector`. -/
def words (args : List UInt8) : List (List UInt8) := (args.splitOnP isspace).filter (· ≠ [])

/-- The calls of `push_to_argv` of `MakeArgVector`: the number of arguments, or `kFull`. `argc` counts those
that are there, `argbufIndex` the bytes that they take. -/
def pushToArgv (task : PagingTask) (argv argvLen argbuf argbufLen : Nat) :
    (argc argbufIndex : Nat) → List (List UInt8) → Kernel F (WithError Nat)
  | argc, _, [] => pure ⟨argc, .kSuccess⟩
  | argc, argbufIndex, arg :: args =>
    if argvLen ≤ argc ∨ argbufLen ≤ argbufIndex then pure ⟨argc, .kFull⟩
    else do
      let pointer := argbuf + argbufIndex
      storeBytes task (argv + 8 * argc) ((List.range 8).map fun k => UInt8.ofNat (pointer / 256 ^ k % 256))
      storeBytes task pointer (arg ++ [0])
      pushToArgv task argv argvLen argbuf argbufLen (argc + 1) (argbufIndex + arg.length + 1) args

/-- The arguments of `CallApp`, and the regions that the task gets before it. -/
structure CallApp where
  argc : Nat
  entry : Nat
  elfNextPage : Nat
  fileMapEnd : Nat

/-- `ExecuteFile` up to `CallApp`, or to the error that it returns before it. `files` are the files of the
terminal. -/
def executeFile (vol : Volume) (task : PagingTask) (fileBuf : Nat) (files : List F) (r : EntryRef)
    (command : List UInt8) (firstArg : Option (List UInt8)) : Kernel F (Except Error CallApp) := do
  let appLoad ← loadApp vol task fileBuf r
  if appLoad.error ≠ .kSuccess then pure (.error appLoad.error)
  else
    let err ← paging fun m => m.setupPageMaps argsFrameAddr 1 true
    if err ≠ .kSuccess then pure (.error err)
    else
      let argv := argsFrameAddr.value
      let argc ← pushToArgv task argv 32 (argv + 8 * 32) (4096 - 8 * 32) 0 0
        (command :: (firstArg.map words).getD [])
      if argc.error ≠ .kSuccess then pure (.error argc.error)
      else
        let err ← paging fun m => m.setupPageMaps stackFrameAddr 16 true
        if err ≠ .kSuccess then pure (.error err)
        else
          modify fun s => { s with files := s.files ++ files }
          pure (.ok {
            argc := argc.value
            entry := appLoad.value.entry
            elfNextPage := (appLoad.value.vaddrEnd + 4095) % 2 ^ 64 / 4096 * 4096
            fileMapEnd := stackFrameAddr.value })

/-- Nothing shows that `ExecuteFile` was called. -/
structure SameTrace (s s' : State F) : Prop where
  allocated : ∀ f, s'.machine.memoryManager.getBit f = s.machine.memoryManager.getBit f
  cr3 : s'.machine.cr3 = s.machine.cr3
  contextCR3 : s'.contextCR3 = s.contextCR3
  files : s'.files = s.files
  appLoads : s'.appLoads = s.appLoads

/-! ## No frame is given back -/

/-- The start of an application only takes frames. -/
def TakesFrames (s s' : State F) : Prop := Takes s.machine s'.machine

instance : Std.Refl (TakesFrames (F := F)) := ⟨fun s => .refl s.machine⟩

instance : IsTrans (State F) TakesFrames := ⟨fun _ _ _ h h' => h.trans h'⟩

variable {α : Type} {task : PagingTask}

namespace TakesFrames

theorem paging {f : Machine → α × Machine} (hf : ∀ m, Takes m (f m).2) :
    Along TakesFrames (paging f : Kernel F α) := by
  intro s a s' h
  cases h
  exact hf s.machine

theorem frameAt (addr : LinearAddress4Level) (rw : Bool) :
    Along TakesFrames (frameAt task addr rw : Kernel F Nat) := by
  refine .bind .get fun s => .ite ?_ .failure
  split
  · exact .pure _
  · refine .bind (paging fun m => .handlePageFault m _ _ _) fun err => .ite ?_ .failure
    exact .bind .get fun s => .lift _

theorem loadByte (a : Nat) : Along TakesFrames (loadByte task a : Kernel F UInt8) :=
  .bind (frameAt _ _) fun _ => .bind .get fun _ => .pure _

theorem storeByte (a : Nat) (b : UInt8) : Along TakesFrames (storeByte task a b : Kernel F Unit) :=
  .bind (frameAt _ _) fun _ => paging fun m => .refl m

theorem load (a n : Nat) : Along TakesFrames (load task a n : Kernel F Nat) := by
  induction n generalizing a with
  | zero => exact .pure _
  | succ n ih => exact .bind (loadByte a) fun _ => .bind (ih _) fun _ => .pure _

theorem storeBytes (a : Nat) (bytes : List UInt8) :
    Along TakesFrames (storeBytes task a bytes : Kernel F Unit) := by
  induction bytes generalizing a with
  | nil => exact .pure _
  | cons b bytes ih => exact .bind (storeByte a b) fun _ => ih _

theorem memcpy (dst src n : Nat) : Along TakesFrames (memcpy task dst src n : Kernel F Unit) := by
  induction n generalizing dst src with
  | zero => exact .pure _
  | succ n ih => exact .bind (loadByte src) fun _ => .bind (storeByte dst _) fun _ => ih _ _

theorem memset (dst : Nat) (b : UInt8) (n : Nat) :
    Along TakesFrames (memset task dst b n : Kernel F Unit) := by
  induction n generalizing dst with
  | zero => exact .pure _
  | succ n ih => exact .bind (storeByte dst b) fun _ => ih _

theorem firstLoadAddress (ehdr phdr turns i : Nat) :
    Along TakesFrames (firstLoadAddress task ehdr phdr turns i : Kernel F Nat) := by
  induction turns generalizing i with
  | zero => exact .pure _
  | succ turns ih =>
    refine .bind (load _ _) fun _ => .ite ?_ (.pure _)
    exact .bind (load _ _) fun _ => .ite (ih _) (load _ _)

theorem copyLoop (ehdr phdr turns i lastAddr : Nat) :
    Along TakesFrames (copyLoop task ehdr phdr turns i lastAddr : Kernel F (WithError Nat)) := by
  induction turns generalizing i lastAddr with
  | zero => exact .pure _
  | succ turns ih =>
    refine .bind (load _ _) fun _ => .ite ?_ (.pure _)
    refine .bind (load _ _) fun _ => .ite (ih _ _) ?_
    refine .bind (load _ _) fun _ => .bind (load _ _) fun _ => ?_
    refine .bind (paging fun m => .setupPageMaps m _ _ _) fun _ => .ite (.pure _) ?_
    refine .bind (load _ _) fun _ => .bind (load _ _) fun _ => .bind (memcpy _ _ _) fun _ => ?_
    exact .bind (load _ _) fun _ => .bind (memset _ _ _) fun _ => ih _ _

theorem getProgramHeader (ehdr : Nat) :
    Along TakesFrames (getProgramHeader task ehdr : Kernel F Nat) :=
  .bind (load _ _) fun _ => .pure _

theorem loadELF (ehdr : Nat) : Along TakesFrames (loadELF task ehdr : Kernel F (WithError Nat)) := by
  refine .bind (load _ _) fun _ => .ite (.pure _) ?_
  refine .bind (getProgramHeader _) fun _ => .bind (firstLoadAddress _ _ _ _) fun _ => .ite (.pure _) ?_
  exact .bind (getProgramHeader _) fun _ => copyLoop _ _ _ _ _

theorem setupPML4 : Along TakesFrames (setupPML4 : Kernel F (WithError Nat)) := by
  refine .bind (paging .setupPML4) fun _ => .ite ?_ (.pure _)
  exact .bind (.modify fun s => .refl s.machine) fun _ => .pure _

theorem shareImage (appLoad : AppLoadInfo) (pml4 src : Nat) :
    Along TakesFrames (shareImage appLoad pml4 src : Kernel F (WithError AppLoadInfo)) :=
  .bind (paging (.copyPageMaps _ _ _ _)) fun _ => .pure _

theorem loadAppFile (vol : Volume) (fileBuf : Nat) (r : EntryRef) (tempPML4 : Nat) :
    Along TakesFrames (loadAppFile vol task fileBuf r tempPML4 : Kernel F (WithError AppLoadInfo)) := by
  refine .bind (.lift _) fun _ => .bind (storeBytes _ _) fun _ => ?_
  refine .bind (load _ _) fun _ => .ite (.pure _) ?_
  refine .bind (loadELF _) fun _ => .ite (.pure _) ?_
  refine .bind (load _ _) fun _ => .bind (.modify fun s => .refl s.machine) fun _ => ?_
  exact .bind setupPML4 fun _ => .ite (.pure _) (shareImage _ _ _)

theorem pushToArgv (argv argvLen argbuf argbufLen argc argbufIndex : Nat) (args : List (List UInt8)) :
    Along TakesFrames (pushToArgv task argv argvLen argbuf argbufLen argc argbufIndex args :
      Kernel F (WithError Nat)) := by
  induction args generalizing argc argbufIndex with
  | nil => exact .pure _
  | cons arg args ih =>
    refine .ite (.pure _) ?_
    exact .bind (storeBytes _ _) fun _ => .bind (storeBytes _ _) fun _ => ih _ _

end TakesFrames

/-! ## What an error leaves behind -/

/-- `SetupPML4` takes a frame, or none is free and it does nothing. -/
theorem setupPML4_run {s s' : State F} {pml4 : WithError Nat} (h : setupPML4.run s = some (pml4, s')) :
    (pml4.error = .kSuccess ∧ ∃ f, s.machine.memoryManager.rangeBegin ≤ f ∧
      f < s.machine.memoryManager.rangeEnd ∧ s.machine.memoryManager.getBit f = false ∧
      s'.machine.memoryManager.getBit f = true) ∨
    (pml4.error = .kNoEnoughMemory ∧ s' = s ∧
      ∀ f, s.machine.memoryManager.rangeBegin ≤ f → f < s.machine.memoryManager.rangeEnd →
        s.machine.memoryManager.getBit f = true) := by
  obtain ⟨pml4, s₁, hpaging, h⟩ := run_bind_eq_some.mp h
  cases hpaging
  rcases setupPML4_takes s.machine with ⟨hok, f, hfree, htaken, hlo, hhi⟩ | ⟨hfail, hfull⟩
  · rw [if_pos hok] at h
    cases h
    exact .inl ⟨hok, f, hlo, hhi, hfree, htaken⟩
  · rw [hfail] at h
    cases h
    exact .inr ⟨rfl, rfl, hfull⟩

/-- What follows the first `SetupPML4` in `ExecuteFile` gives no frame back. -/
theorem executeFile_takes {vol : Volume} {fileBuf : Nat} {files : List F} {r : EntryRef}
    {command : List UInt8} {firstArg : Option (List UInt8)} {s s' : State F} {a : Except Error CallApp}
    (h : (executeFile vol task fileBuf files r command firstArg).run s = some (a, s')) :
    ∃ pml4 s₁, setupPML4.run s = some (pml4, s₁) ∧ TakesFrames s₁ s' ∧
      (pml4.error ≠ .kSuccess → a = .error pml4.error ∧ s' = s₁) := by
  obtain ⟨appLoad, s₂, hload, h⟩ := run_bind_eq_some.mp h
  obtain ⟨pml4, s₁, hsetup, hload⟩ := run_bind_eq_some.mp hload
  have htail : TakesFrames s₂ s' := by
    refine Along.ite (R := TakesFrames) (.pure _) ?_ s₂ _ s' h
    refine .bind (.paging fun m => .setupPageMaps m _ _ _) fun _ => .ite (.pure _) ?_
    refine .bind (.pushToArgv _ _ _ _ _ _ _) fun _ => .ite (.pure _) ?_
    refine .bind (.paging fun m => .setupPageMaps m _ _ _) fun _ => .ite (.pure _) ?_
    exact .bind (.modify fun s => .refl s.machine) fun _ => .pure _
  by_cases hok : pml4.error = .kSuccess
  · rw [if_neg (fun h => h hok)] at hload
    have hhead : TakesFrames s₁ s₂ := by
      refine Along.bind (R := TakesFrames) .get (fun s => ?_) s₁ _ s₂ hload
      split
      · exact .shareImage _ _ _
      · exact .loadAppFile _ _ _ _
    exact ⟨pml4, s₁, hsetup, hhead.trans htail, fun h => absurd hok h⟩
  · rw [if_pos hok] at hload
    cases hload
    rw [if_pos hok] at h
    cases h
    exact ⟨pml4, _, hsetup, .refl _, fun _ => ⟨rfl, rfl⟩⟩

/-- An execution that ends with an error before `CallApp` leaves no trace just when there is no free frame
to begin with. -/
theorem executeFile_sameTrace_iff (vol : Volume) (task : PagingTask) (fileBuf : Nat) (files : List F)
    (r : EntryRef) (command : List UInt8) (firstArg : Option (List UInt8)) (s s' : State F) (err : Error)
    (h : (executeFile vol task fileBuf files r command firstArg).run s = some (.error err, s')) :
    SameTrace s s' ↔ ∀ f, s.machine.memoryManager.rangeBegin ≤ f → f < s.machine.memoryManager.rangeEnd →
      s.machine.memoryManager.getBit f = true := by
  obtain ⟨pml4, s₁, hsetup, htakes, hfail⟩ := executeFile_takes h
  rcases setupPML4_run hsetup with ⟨-, f, hlo, hhi, hfree, htaken⟩ | ⟨herr, heq, hfull⟩
  · constructor
    · intro hsame
      -- the frame of the new PML4 is still allocated
      have hstill := htakes f htaken
      rw [hsame.allocated f, hfree] at hstill
      cases hstill
    · intro hfull
      have hused := hfull f hlo hhi
      rw [hfree] at hused
      cases hused
  · have hsame : s' = s := (hfail (by rw [herr]; decide)).2.trans heq
    rw [hsame]
    exact ⟨fun _ => hfull, fun _ => ⟨fun _ => rfl, rfl, rfl, rfl, rfl⟩⟩

/-! ## A text that is executed -/

/-- The PML4 of the kernel is in frame 1. With the table in frame 2 it maps the first GiB to itself. -/
def kernelMemory : Memory := fun f i =>
  if f = 1 ∧ i = 0 then 0x2003
  else if f = 2 ∧ i = 0 then 0x83
  else 0

/-- The frames up to 3 are in use, and the others up to `rangeEnd` are free. -/
def kernelState (rangeEnd : Nat) : State Unit where
  machine := {
    mem := kernelMemory
    memoryManager := {
      allocMap := fun line => if line = 0 then 0xf else 0
      rangeBegin := 1
      rangeEnd }
    cr3 := 1
    freed := [] }
  contextCR3 := 1
  files := []
  appLoads := fun _ => none

def textEntry : EntryRef := ⟨2, 0⟩

/-- A file with the text `text`. -/
def textVolume : Volume where
  bytesPerCluster := 512
  rootCluster := 2
  fatWords := 128
  fat := fun c => if c = 2 ∨ c = 3 then kEndOfClusterchain else 0
  data := fun c i => if c = 3 then [0x74, 0x65, 0x78, 0x74].getD i 0 else 0
  entry := fun r =>
    if r = textEntry then ⟨.replicate 11 0x41, 0x20, 0, 3, 4⟩ else ⟨.replicate 11 0, 0, 0, 0, 0⟩

def noTask : PagingTask := ⟨0, 0, [], fun _ => ⟨fun _ _ => [], fun _ _ => Nat.zero_le _⟩⟩

/-- The execution of the text, with the file buffer in frame 3. -/
def executeText (rangeEnd : Nat) : Option (Except Error CallApp × State Unit) :=
  (executeFile textVolume noTask 0x3000 [] textEntry [0x61] none).run (kernelState rangeEnd)

/-- Without a free frame. -/
theorem executeFile_sameTrace_iff_full : ∃ err s',
    executeText 4 = some (.error err, s') ∧ SameTrace (kernelState 4) s' := by
  have h : (executeText 4).map (fun out => out.1.isOk) = some false := by decide +kernel
  obtain ⟨⟨result, s'⟩, hrun, hresult⟩ := Option.map_eq_some_iff.mp h
  cases result with
  | ok call => cases hresult
  | error err =>
    refine ⟨err, s', hrun, (executeFile_sameTrace_iff textVolume noTask 0x3000 [] textEntry [0x61] none
      (kernelState 4) s' err hrun).mpr fun f hlo hhi => ?_⟩
    have hf : f < 4 := hhi
    interval_cases f <;> decide

/-- A text is no executable, but the frame of its PML4 stays allocated. -/
theorem not_sameTrace_of_text : ¬∀ (vol : Volume) (task : PagingTask) (fileBuf : Nat) (files : List Unit)
    (r : EntryRef) (command : List UInt8) (firstArg : Option (List UInt8)) (s s' : State Unit) (err : Error),
    (executeFile vol task fileBuf files r command firstArg).run s = some (.error err, s') →
      SameTrace s s' := by
  intro hsame
  have h : (executeText 64).map (fun out => (out.1.isOk, out.2.machine.memoryManager.getBit 4)) =
      some (false, true) := by decide +kernel
  obtain ⟨⟨result, s'⟩, hrun, hresult⟩ := Option.map_eq_some_iff.mp h
  obtain ⟨herror, hbit⟩ := Prod.mk.inj hresult
  cases result with
  | ok call => cases herror
  | error err =>
    have hfree := (hsame _ _ _ _ _ _ _ _ _ _ hrun).allocated 4
    rw [hbit] at hfree
    exact absurd hfree (by decide)

end MikanOS.Terminal
