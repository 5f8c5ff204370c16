import MikanOS.Paging.Machine

/-! # The paging code

`paging.cpp`, and from `terminal.cpp` the set-up and clean-up of an application's address space. The
loops over the entries of a table recur on the list of its indices, the recursion over the levels is
on the level. -/

namespace MikanOS

/-- The indices of a table from `start` on. -/
def entriesFrom (start : Nat) : List (Fin 512) :=
  (List.finRange 512).filter fun i => start ≤ i.val

/-- `for (int i = start; i < 512; ++i)`, left at the first error of its body. -/
def forEntries (body : Fin 512 → Machine → Error × Machine) :
    List (Fin 512) → Machine → Error × Machine
  | [], m => (.kSuccess, m)
  | i :: is, m =>
    let (err, m) := body i m
    if err = .kSuccess then forEntries body is m else (err, m)

/-- The address of the next entry in `SetupPageMap`: the lower levels start again at 0. -/
def LinearAddress4Level.nextEntry (addr : LinearAddress4Level) (pageMapLevel : Nat) :
    LinearAddress4Level :=
  let addr := addr.setPart (addr.part pageMapLevel + 1) pageMapLevel
  (List.range (pageMapLevel - 1)).foldr (fun level addr => addr.setPart 0 (level + 1)) addr

/-- `FileMapping`. -/
structure FileMapping where
  fd : Nat
  vaddrBegin : Nat
  vaddrEnd : Nat

/-- `FileDescriptor::Load` of an open file: the bytes that it puts into the buffer, which depend on
the kind of the descriptor. -/
structure FileLoad where
  load : (len offset : Nat) → List UInt8
  length_load : ∀ len offset, (load len offset).length ≤ len

/-- What the page fault handler reads of the running `Task`. -/
structure PagingTask where
  dpagingBegin : Nat
  dpagingEnd : Nat
  fileMaps : List FileMapping
  files : Nat → FileLoad

namespace Machine

variable (m : Machine)

/-- `NewPageMap`: a zeroed frame. -/
def newPageMap : WithError Nat × Machine :=
  let (frame, memoryManager) := m.memoryManager.allocate 1
  let m := { m with memoryManager }
  if frame.error = .kSuccess then (⟨frame.value, .kSuccess⟩, m.setPage frame.value fun _ => 0)
  else (⟨0, frame.error⟩, m)

/-- `FreePageMap`. -/
def freePageMap (table : Nat) : Error × Machine :=
  let (err, memoryManager) := m.memoryManager.free table 1
  (err, { m with memoryManager, freed := table :: m.freed })

/-- `SetNewPageMapIfNotPresent`. -/
def setNewPageMapIfNotPresent (table : Nat) (i : Fin 512) : WithError Nat × Machine :=
  let entry := m.mem table i
  if entry.present then (⟨entry.pointer, .kSuccess⟩, m)
  else
    let (childMap, m) := m.newPageMap
    if childMap.error = .kSuccess then
      let m := m.setEntry table i ((m.mem table i).setPointer childMap.value)
      let m := m.setEntry table i ((m.mem table i).setPresent true)
      (⟨childMap.value, .kSuccess⟩, m)
    else (⟨0, childMap.error⟩, m)

/-- The loop of `SetupPageMap` on one table, with `setupChild` its call for the next level. It ends
at the last entry of the table, so it makes at most 512 turns. -/
def setupLoop (setupChild : Nat → LinearAddress4Level → Nat → Machine → WithError Nat × Machine)
    (pageMap pageMapLevel : Nat) (writable : Bool) :
    (turns : Nat) → LinearAddress4Level → Nat → Machine → WithError Nat × Machine
  | 0, _, num4kpages, m => (⟨num4kpages, .kSuccess⟩, m)
  | turns + 1, addr, num4kpages, m =>
    if num4kpages = 0 then (⟨num4kpages, .kSuccess⟩, m)
    else
      let entryIndex := addr.part pageMapLevel
      let (childMap, m) := m.setNewPageMapIfNotPresent pageMap entryIndex
      if childMap.error = .kSuccess then
        let m := m.setEntry pageMap entryIndex ((m.mem pageMap entryIndex).setUser true)
        let (rest, m) :=
          if pageMapLevel = 1 then
            (⟨num4kpages - 1, .kSuccess⟩,
              m.setEntry pageMap entryIndex ((m.mem pageMap entryIndex).setWritable writable))
          else
            setupChild childMap.value addr num4kpages
              (m.setEntry pageMap entryIndex ((m.mem pageMap entryIndex).setWritable true))
        if rest.error = .kSuccess then
          if entryIndex = 511 then (rest, m)
          else setupLoop setupChild pageMap pageMapLevel writable turns
            (addr.nextEntry pageMapLevel) rest.value m
        else (⟨num4kpages, rest.error⟩, m)
      else (⟨num4kpages, childMap.error⟩, m)

/-- `SetupPageMap`. -/
def setupPageMap (writable : Bool) : (pageMapLevel pageMap : Nat) → LinearAddress4Level → Nat →
    Machine → WithError Nat × Machine
  | 0, _, _, num4kpages, m => (⟨num4kpages, .kSuccess⟩, m)
  | level + 1, pageMap, addr, num4kpages, m =>
    setupLoop (setupPageMap writable level) pageMap (level + 1) writable 512 addr num4kpages m

/-- `SetupPageMaps`. -/
def setupPageMaps (addr : LinearAddress4Level) (num4kpages : Nat) (writable : Bool) :
    Error × Machine :=
  let (rest, m) := setupPageMap writable 4 m.cr3 addr num4kpages m
  (rest.error, m)

/-- One turn of the loop of `CleanPageMap`, with `cleanChild` its call for the next level. -/
def cleanEntry (cleanChild : Nat → Machine → Error × Machine) (pageMap pageMapLevel : Nat)
    (i : Fin 512) (m : Machine) : Error × Machine :=
  let entry := m.mem pageMap i
  if entry.present then
    let (err, m) := if 1 < pageMapLevel then cleanChild entry.pointer m else (.kSuccess, m)
    if err = .kSuccess then
      let (err, m) := if entry.writable then m.freePageMap entry.pointer else (.kSuccess, m)
      if err = .kSuccess then (.kSuccess, m.setEntry pageMap i 0) else (err, m)
    else (err, m)
  else (.kSuccess, m)

/-- `CleanPageMap`. -/
def cleanPageMap (addr : LinearAddress4Level) : (pageMapLevel pageMap : Nat) → Machine →
    Error × Machine
  | 0, _, m => (.kSuccess, m)
  | level + 1, pageMap, m =>
    forEntries (cleanEntry (cleanPageMap addr level) pageMap (level + 1))
      (entriesFrom (addr.part (level + 1))) m

/-- `CleanPageMaps`. -/
def cleanPageMaps (addr : LinearAddress4Level) : Error × Machine := cleanPageMap addr 4 m.cr3 m

/-- One turn of the last loop of `CopyPageMaps`: a page is shared, read-only. -/
def copyLeaf (dest src : Nat) (i : Fin 512) (m : Machine) : Error × Machine :=
  if (m.mem src i).present then
    let m := m.setEntry dest i (m.mem src i)
    (.kSuccess, m.setEntry dest i ((m.mem dest i).setWritable false))
  else (.kSuccess, m)

/-- One turn of its other loop, with `copyChild` the call for the next level. -/
def copyTable (copyChild : Nat → Nat → Machine → Error × Machine) (dest src : Nat) (i : Fin 512)
    (m : Machine) : Error × Machine :=
  if (m.mem src i).present then
    let (table, m) := m.newPageMap
    if table.error = .kSuccess then
      let m := m.setEntry dest i (m.mem src i)
      let m := m.setEntry dest i ((m.mem dest i).setPointer table.value)
      copyChild table.value (m.mem src i).pointer m
    else (table.error, m)
  else (.kSuccess, m)

/-- `CopyPageMaps`. -/
def copyPageMaps : (part : Nat) → (dest src start : Nat) → Machine → Error × Machine
  | 0, _, _, _, m => (.kSuccess, m)
  | 1, dest, src, start, m => forEntries (copyLeaf dest src) (entriesFrom start) m
  | part + 2, dest, src, start, m =>
    forEntries (copyTable (fun table child => copyPageMaps (part + 1) table child 0) dest src)
      (entriesFrom start) m

/-- `SetPageContent`. -/
def setPageContent (addr : LinearAddress4Level) (content : Nat) : (part table : Nat) → Machine →
    Machine
  | 0, _, m => m
  | 1, table, m =>
    let i := addr.part 1
    let m := m.setEntry table i ((m.mem table i).setPointer content)
    m.setEntry table i ((m.mem table i).setWritable true)
  | part + 2, table, m =>
    setPageContent addr content (part + 1) (m.mem table (addr.part (part + 2))).pointer m

/-- `CopyOnePage`. -/
def copyOnePage (causalAddr : LinearAddress4Level) : Error × Machine :=
  let (p, m) := m.newPageMap
  if p.error = .kSuccess then
    let m := m.setPage p.value (m.readPage { causalAddr with offset := 0 })
    (.kSuccess, setPageContent causalAddr p.value 4 m.cr3 m)
  else (p.error, m)

/-- `FindFileMapping`. -/
def findFileMapping (fmaps : List FileMapping) (causalVaddr : Nat) : Option FileMapping :=
  fmaps.find? fun f => f.vaddrBegin ≤ causalVaddr && causalVaddr < f.vaddrEnd

/-- `PreparePageCache`. -/
def preparePageCache (fd : FileLoad) (f : FileMapping) (causalVaddr : LinearAddress4Level) :
    Error × Machine :=
  let pageVaddr := { causalVaddr with offset := 0 }
  let (err, m) := m.setupPageMaps pageVaddr 1 true
  if err = .kSuccess then
    let fileOffset := (pageVaddr.value + 2 ^ 64 - f.vaddrBegin) % 2 ^ 64
    (.kSuccess, m.writePage pageVaddr (fd.load 4096 fileOffset))
  else (err, m)

/-- `HandlePageFault`. -/
def handlePageFault (task : PagingTask) (errorCode : Nat) (causalAddr : LinearAddress4Level) :
    Error × Machine :=
  let present := errorCode.testBit 0
  let rw := errorCode.testBit 1
  let user := errorCode.testBit 2
  if present && rw && user then m.copyOnePage causalAddr
  else if present then (.kAlreadyAllocated, m)
  else if task.dpagingBegin ≤ causalAddr.value ∧ causalAddr.value < task.dpagingEnd then
    m.setupPageMaps causalAddr 1 true
  else
    match findFileMapping task.fileMaps causalAddr.value with
    | some f => m.preparePageCache (task.files f.fd) f causalAddr
    | none => (.kIndexOutOfRange, m)

/-! ## The address space of an application -/

/-- `SetupPML4`: a new PML4 with the lower half of the current one, and the switch to it. -/
def setupPML4 : WithError Nat × Machine :=
  let (pml4, m) := m.newPageMap
  if pml4.error = .kSuccess then
    let lower (i : Fin 512) := if i.val < 256 then m.mem m.cr3 i else m.mem pml4.value i
    (pml4, { m.setPage pml4.value lower with cr3 := pml4.value })
  else (pml4, m)

/-- `FreePML4`, with `kernelPML4` the table of `ResetCR3`. -/
def freePML4 (kernelPML4 : Nat) : Error × Machine :=
  let cr3 := m.cr3
  { m with cr3 := kernelPML4 }.freePageMap cr3

/-- `LoadApp` for an application that is in `app_loads` with the page maps `appLoad`. -/
def loadApp (appLoad : Nat) : WithError Nat × Machine :=
  let (tempPML4, m) := m.setupPML4
  if tempPML4.error = .kSuccess then
    let (err, m) := copyPageMaps 4 tempPML4.value appLoad 256 m
    (⟨tempPML4.value, err⟩, m)
  else (tempPML4, m)

end Machine

end MikanOS
