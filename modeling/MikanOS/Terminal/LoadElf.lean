import MikanOS.Error
import MikanOS.Library.FlatMemory

/-! # Loading an executable

`LoadELF` of `terminal.cpp` copies the segments of an executable from the file buffer to the addresses
that its program headers ask for. The accesses to memory are recorded; the memory is read anew for
every field, as the code does. -/

namespace MikanOS.Elf

open FlatMemory

def ET_EXEC : Nat := 2
def PT_LOAD : Nat := 1

/-- The first address of the application half. -/
def applicationBase : Nat := 0xffff800000000000

/-- `stack_frame_addr` and `args_frame_addr` of `ExecuteFile`. -/
def stackFrameAddr : Nat := 0xffffffffffffe000 - 16 * 4096
def argsFrameAddr : Nat := 0xfffffffffffff000

variable (m : FlatMemory.Memory) (ehdr phdr i : Nat)

/-! ## The fields of the headers (`elf.hpp`) -/

def e_type : Nat := load m (ehdr + 16) 2
def e_phoff : Nat := load m (ehdr + 32) 8
def e_phnum : Nat := load m (ehdr + 56) 2

/-- `&phdr[i]`. -/
def phdrAt : Nat := phdr + 56 * i

def p_type : Nat := load m (phdrAt phdr i) 4
def p_offset : Nat := load m (phdrAt phdr i + 8) 8
def p_vaddr : Nat := load m (phdrAt phdr i + 16) 8
def p_filesz : Nat := load m (phdrAt phdr i + 32) 8
def p_memsz : Nat := load m (phdrAt phdr i + 40) 8

def GetProgramHeader : Nat := (ehdr + e_phoff m ehdr) % 2 ^ 64

/-- What a function has done: its accesses in order, the memory after them and its result. -/
structure Outcome (α : Type) where
  accesses : List Access
  memory : FlatMemory.Memory
  result : α

/-- The loop of `GetFirstLoadAddress`, with a bound on its turns; `e_phnum` has 16 bits. -/
def firstLoadAddress (phdr : Nat) : Nat → Nat → List Access × Nat
  | 0, _ => ([], 0)
  | fuel + 1, i =>
    if i < e_phnum m ehdr then
      if p_type m phdr i ≠ PT_LOAD then
        let (accesses, addr) := firstLoadAddress phdr fuel (i + 1)
        (.read (ehdr + 56) 2 :: .read (phdrAt phdr i) 4 :: accesses, addr)
      else
        ([.read (ehdr + 56) 2, .read (phdrAt phdr i) 4, .read (phdrAt phdr i + 16) 8],
          p_vaddr m phdr i)
    else ([.read (ehdr + 56) 2], 0)

def GetFirstLoadAddress : List Access × Nat :=
  let (accesses, addr) := firstLoadAddress m ehdr (GetProgramHeader m ehdr) (2 ^ 16) 0
  (.read (ehdr + 32) 8 :: accesses, addr)

/-- The reads of one program header of type `PT_LOAD`, without those of its type. -/
def headerReads : List Access :=
  [.read (phdrAt phdr i + 16) 8, .read (phdrAt phdr i + 40) 8, .read (phdrAt phdr i + 8) 8,
    .read (phdrAt phdr i + 32) 8]

/-- The loop of `CopyLoadSegments`, with a bound on its turns. What `SetupPageMaps` returns for an
address and a number of pages is left open. -/
def copyLoop (setupPageMaps : Nat → Nat → Error) (phdr : Nat) :
    Nat → Nat → FlatMemory.Memory → Nat → Outcome (WithError Nat)
  | 0, _, m, lastAddr => ⟨[], m, ⟨lastAddr, .kSuccess⟩⟩
  | fuel + 1, i, m, lastAddr =>
    if i < e_phnum m ehdr then
      if p_type m phdr i ≠ PT_LOAD then
        let rest := copyLoop setupPageMaps phdr fuel (i + 1) m lastAddr
        { rest with
          accesses := .read (ehdr + 56) 2 :: .read (phdrAt phdr i) 4 :: rest.accesses }
      else
        let vaddr := p_vaddr m phdr i
        let memsz := p_memsz m phdr i
        let filesz := p_filesz m phdr i
        let lastAddr := max lastAddr ((vaddr + memsz) % 2 ^ 64)
        let header := .read (ehdr + 56) 2 :: .read (phdrAt phdr i) 4 :: headerReads phdr i
        let err := setupPageMaps vaddr ((memsz + 4095) % 2 ^ 64 / 4096)
        if err ≠ .kSuccess then ⟨header, m, ⟨lastAddr, err⟩⟩
        else
          let src := (ehdr + p_offset m phdr i) % 2 ^ 64
          let zeros := (memsz + 2 ^ 64 - filesz) % 2 ^ 64
          let m := fill (copy m vaddr src filesz) ((vaddr + filesz) % 2 ^ 64) 0 zeros
          let rest := copyLoop setupPageMaps phdr fuel (i + 1) m lastAddr
          { rest with
            accesses := header ++ .read src filesz :: .write vaddr filesz ::
              .write ((vaddr + filesz) % 2 ^ 64) zeros :: rest.accesses }
    else ⟨[.read (ehdr + 56) 2], m, ⟨lastAddr, .kSuccess⟩⟩

def CopyLoadSegments (setupPageMaps : Nat → Nat → Error) : Outcome (WithError Nat) :=
  let copied := copyLoop ehdr setupPageMaps (GetProgramHeader m ehdr) (2 ^ 16) 0 m 0
  { copied with accesses := .read (ehdr + 32) 8 :: copied.accesses }

def LoadELF (setupPageMaps : Nat → Nat → Error) : Outcome (WithError Nat) :=
  let typeRead : Access := .read (ehdr + 16) 2
  if e_type m ehdr ≠ ET_EXEC then ⟨[typeRead], m, ⟨0, .kInvalidFormat⟩⟩
  else
    let (accesses, addrFirst) := GetFirstLoadAddress m ehdr
    if addrFirst < applicationBase then ⟨typeRead :: accesses, m, ⟨0, .kInvalidFormat⟩⟩
    else
      let copied := CopyLoadSegments m ehdr setupPageMaps
      { copied with accesses := typeRead :: (accesses ++ copied.accesses) }

/-! ## Which files keep to their place -/

/-- An access that reads in the file buffer or writes below the stack in the application half, and so
neither to the stack pages nor to the argument page. -/
def Confined (ehdr len : Nat) : Access → Prop
  | .read addr n => Within ehdr (ehdr + len) addr n
  | .write addr n => Within applicationBase stackFrameAddr addr n

/-- The program header with number `i` lies in the file and asks for what is there, at addresses below
the stack in the application half. -/
structure GoodHeader (len i : Nat) : Prop where
  type_in_file : e_phoff m ehdr + 56 * i + 4 ≤ len
  load : p_type m (GetProgramHeader m ehdr) i = PT_LOAD →
    e_phoff m ehdr + 56 * i + 48 ≤ len ∧
    p_filesz m (GetProgramHeader m ehdr) i ≤ p_memsz m (GetProgramHeader m ehdr) i ∧
    (p_filesz m (GetProgramHeader m ehdr) i = 0 ∨
      p_offset m (GetProgramHeader m ehdr) i + p_filesz m (GetProgramHeader m ehdr) i ≤ len) ∧
    (p_memsz m (GetProgramHeader m ehdr) i = 0 ∨
      applicationBase ≤ p_vaddr m (GetProgramHeader m ehdr) i ∧
      p_vaddr m (GetProgramHeader m ehdr) i + p_memsz m (GetProgramHeader m ehdr) i ≤
        stackFrameAddr)

/-- The file of `len` bytes in the buffer: its header lies in it, and its program headers are good. -/
structure GoodFile (len : Nat) : Prop where
  header : 58 ≤ len
  programHeaders : ∀ i < e_phnum m ehdr, GoodHeader m ehdr len i

variable {m ehdr phdr i} {m' : FlatMemory.Memory} {len : Nat} {setupPageMaps : Nat → Nat → Error}

/-- The three accesses for a segment. -/
theorem segment_confined_iff {offset vaddr filesz memsz : Nat}
    (hbuf : ehdr + len ≤ applicationBase) (hoffset : offset < 2 ^ 64) (hvaddr : vaddr < 2 ^ 64)
    (hfilesz : filesz < 2 ^ 64) (hmemsz : memsz < 2 ^ 64) :
    (Confined ehdr len (.read ((ehdr + offset) % 2 ^ 64) filesz) ∧
      Confined ehdr len (.write vaddr filesz) ∧
      Confined ehdr len
        (.write ((vaddr + filesz) % 2 ^ 64) ((memsz + 2 ^ 64 - filesz) % 2 ^ 64))) ↔
    filesz ≤ memsz ∧ (filesz = 0 ∨ offset + filesz ≤ len) ∧
      (memsz = 0 ∨ applicationBase ≤ vaddr ∧ vaddr + memsz ≤ stackFrameAddr) := by
  have hbase : applicationBase = 0xffff800000000000 := rfl
  have hstack : stackFrameAddr = 0xfffffffffffee000 := rfl
  rw [Confined, Confined, Confined, within_iff (by omega) (by omega), within_iff hvaddr (by omega),
    within_iff (by omega) (by omega)]
  omega

theorem lt_of_load (m : FlatMemory.Memory) (a : Nat) : load m a 8 < 2 ^ 64 := load_lt m a 8

/-- The fields of a program header in the buffer, in a memory that has the same buffer. -/
theorem fields_eq (hbuf : ehdr + len ≤ applicationBase)
    (hm : ∀ b, ehdr ≤ b → b < ehdr + len → m' b = m b) (hphdr : ehdr ≤ phdr)
    (hin : phdrAt phdr i + 48 ≤ ehdr + len) :
    p_offset m' phdr i = p_offset m phdr i ∧ p_vaddr m' phdr i = p_vaddr m phdr i ∧
      p_filesz m' phdr i = p_filesz m phdr i ∧ p_memsz m' phdr i = p_memsz m phdr i := by
  have hbase : applicationBase = 0xffff800000000000 := rfl
  have hle : ehdr ≤ phdrAt phdr i := by
    rw [phdrAt]
    omega
  refine ⟨load_eq hm ?_ ?_ ?_, load_eq hm ?_ ?_ ?_, load_eq hm ?_ ?_ ?_, load_eq hm ?_ ?_ ?_⟩ <;>
    omega

/-- A part of the buffer is read in place. -/
theorem confined_read_iff {addr n : Nat} (hbuf : ehdr + len ≤ applicationBase) (hn : 0 < n)
    (haddr : addr < 2 ^ 64) :
    Confined ehdr len (.read addr n) ↔ ehdr ≤ addr ∧ addr + n ≤ ehdr + len := by
  have hbase : applicationBase = 0xffff800000000000 := rfl
  rw [Confined, within_iff haddr (by omega)]
  exact or_iff_right hn.ne'

/-- A turn reads the number of program headers, the type of its own, and of a segment to be loaded the
other fields. -/
theorem reads_of_copyLoop (setupPageMaps : Nat → Nat → Error) (phdr fuel lastAddr : Nat)
    (hlt : i < e_phnum m ehdr) :
    .read (ehdr + 56) 2 ∈ (copyLoop ehdr setupPageMaps phdr (fuel + 1) i m lastAddr).accesses ∧
      .read (phdrAt phdr i) 4 ∈ (copyLoop ehdr setupPageMaps phdr (fuel + 1) i m lastAddr).accesses ∧
      (p_type m phdr i = PT_LOAD → ∀ a ∈ headerReads phdr i,
        a ∈ (copyLoop ehdr setupPageMaps phdr (fuel + 1) i m lastAddr).accesses) := by
  rw [copyLoop, if_pos hlt]
  split
  · rename_i htype
    exact ⟨by simp, by simp, fun h => absurd h htype⟩
  · refine ⟨?_, ?_, fun _ a ha => ?_⟩
    · dsimp only
      split <;> simp
    · dsimp only
      split <;> simp
    · dsimp only
      split <;> simp [ha]

/-- The loop keeps to its place just when all program headers from `i` on are good. -/
theorem copyLoop_confined_iff {fuel lastAddr : Nat} (hbuf : ehdr + len ≤ applicationBase)
    (hheader : 58 ≤ len) (hphdr : phdr = ehdr + e_phoff m ehdr) (hphdr_lt : phdr < ehdr + len)
    (hget : GetProgramHeader m ehdr = phdr)
    (hm : ∀ b, ehdr ≤ b → b < ehdr + len → m' b = m b) (hi : i < 2 ^ 16)
    (hfuel : e_phnum m ehdr < i + fuel)
    (hok : (copyLoop ehdr setupPageMaps phdr fuel i m' lastAddr).result.error = .kSuccess) :
    (∀ a ∈ (copyLoop ehdr setupPageMaps phdr fuel i m' lastAddr).accesses, Confined ehdr len a) ↔
      ∀ j, i ≤ j → j < e_phnum m ehdr → GoodHeader m ehdr len j := by
  have hbase : applicationBase = 0xffff800000000000 := rfl
  induction fuel generalizing i m' lastAddr with
  | zero =>
    refine iff_of_true (fun a h => absurd h List.not_mem_nil) fun j hij hj => ?_
    omega
  | succ fuel ih =>
    have hphnum : e_phnum m' ehdr = e_phnum m ehdr :=
      load_eq hm (by omega) (by omega) (by omega)
    have hphnum_lt : e_phnum m ehdr < 2 ^ 16 := load_lt m (ehdr + 56) 2
    have hnumRead : Confined ehdr len (.read (ehdr + 56) 2) :=
      (confined_read_iff hbuf (by decide) (by omega)).mpr ⟨by omega, by omega⟩
    have hat : phdrAt phdr i = phdr + 56 * i := rfl
    by_cases hlt : i < e_phnum m ehdr
    · obtain ⟨-, htypeMem, hheaderMem⟩ := reads_of_copyLoop setupPageMaps phdr fuel lastAddr
        (hphnum.symm ▸ hlt)
      rw [copyLoop, hphnum, if_pos hlt] at hok htypeMem hheaderMem ⊢
      -- the turn for `i` and the turns after it
      have hsplit : (∀ j, i ≤ j → j < e_phnum m ehdr → GoodHeader m ehdr len j) ↔
          GoodHeader m ehdr len i ∧
            ∀ j, i + 1 ≤ j → j < e_phnum m ehdr → GoodHeader m ehdr len j := by
        refine ⟨fun h => ⟨h i (Nat.le_refl _) hlt, fun j hj => h j (by omega)⟩, fun h j hij hj => ?_⟩
        rcases hij.eq_or_lt with rfl | hij
        · exact h.1
        · exact h.2 j hij hj
      have htypeRead : Confined ehdr len (.read (phdrAt phdr i) 4) ↔
          e_phoff m ehdr + 56 * i + 4 ≤ len := by
        rw [confined_read_iff hbuf (by decide) (by omega)]
        omega
      by_cases hin : e_phoff m ehdr + 56 * i + 4 ≤ len
      · have htype : p_type m' phdr i = p_type m phdr i :=
          load_eq hm (by omega) (by omega) (by omega)
        rw [htype] at hok ⊢
        rw [hsplit]
        by_cases hload : p_type m phdr i = PT_LOAD
        · rw [if_neg (not_not.mpr hload)] at hok ⊢
          by_cases hin48 : e_phoff m ehdr + 56 * i + 48 ≤ len
          · have hreads : ∀ a ∈ headerReads phdr i, Confined ehdr len a := by
              intro a ha
              simp only [headerReads, List.mem_cons, List.not_mem_nil, or_false] at ha
              rcases ha with rfl | rfl | rfl | rfl <;>
                exact (confined_read_iff hbuf (by decide) (by omega)).mpr ⟨by omega, by omega⟩
            obtain ⟨hoffset, hvaddr, hfilesz, hmemsz⟩ :=
              fields_eq hbuf hm (show ehdr ≤ phdr by omega) (show phdrAt phdr i + 48 ≤ _ by omega)
            simp only [hoffset, hvaddr, hfilesz, hmemsz] at hok ⊢
            split at hok
            · rename_i herr
              exact absurd hok herr
            · rename_i herr
              rw [if_neg herr]
              have hsegment := segment_confined_iff hbuf (lt_of_load m (phdrAt phdr i + 8))
                (lt_of_load m (phdrAt phdr i + 16)) (lt_of_load m (phdrAt phdr i + 32))
                (lt_of_load m (phdrAt phdr i + 40))
              have hgood : GoodHeader m ehdr len i ↔
                  Confined ehdr len (.read ((ehdr + p_offset m phdr i) % 2 ^ 64)
                    (p_filesz m phdr i)) ∧
                  Confined ehdr len (.write (p_vaddr m phdr i) (p_filesz m phdr i)) ∧
                  Confined ehdr len (.write ((p_vaddr m phdr i + p_filesz m phdr i) % 2 ^ 64)
                    ((p_memsz m phdr i + 2 ^ 64 - p_filesz m phdr i) % 2 ^ 64)) := by
                refine Iff.trans ?_ hsegment.symm
                subst hget
                exact ⟨fun h => (h.load hload).2, fun h => ⟨hin, fun _ => ⟨hin48, h⟩⟩⟩
              simp only [List.forall_mem_append, List.forall_mem_cons, hnumRead, htypeRead, hin,
                true_and]
              rw [and_iff_right hreads, hgood, and_assoc, and_assoc]
              refine and_congr_right fun _ => and_congr_right fun hdata => and_congr_right fun hzeros => ?_
              refine ih (fun b hlo hhi => ?_) (by omega) (by omega) hok
              rw [fill_of_not_within hzeros (Nat.mod_lt _ (by decide)) (by omega) (by omega),
                copy_of_not_within hdata (lt_of_load m _) (by omega) (by omega)]
              exact hm b hlo hhi
          · -- a field is read from behind the file
            rw [htype, if_neg (not_not.mpr hload)] at hheaderMem
            refine iff_of_false (fun h => hin48 ?_) fun h => hin48 (h.1.load (hget ▸ hload)).1
            have := h _ (hheaderMem hload (.read (phdrAt phdr i + 40) 8) (by simp [headerReads]))
            have := (confined_read_iff hbuf (by decide) (by omega)).mp this
            omega
        · rw [if_pos hload] at hok ⊢
          have hgood : GoodHeader m ehdr len i := ⟨hin, fun h => absurd (hget ▸ h) hload⟩
          have hrest := ih hm (by omega) (by omega) hok
          simp only [List.forall_mem_cons, hnumRead, htypeRead, hin, true_and, hgood]
          exact hrest
      · -- the type is read from behind the file
        exact iff_of_false (fun h => hin (htypeRead.mp (h _ htypeMem))) fun h =>
          hin (h i (Nat.le_refl _) hlt).type_in_file
    · rw [copyLoop, hphnum, if_neg hlt]
      refine iff_of_true ?_ fun j hij hj => by omega
      simpa using hnumRead

/-! ## The first load address -/

theorem firstLoadAddress_of_none (fuel : Nat) (h : e_phnum m ehdr = 0) :
    (firstLoadAddress m ehdr phdr fuel 0).2 = 0 := by
  cases fuel with
  | zero => rfl
  | succ fuel => rw [firstLoadAddress, h, if_neg (Nat.lt_irrefl 0)]

/-- Looking for it reads nothing that the copying does not read. -/
theorem firstLoadAddress_confined {fuel : Nat} (hbuf : ehdr + len ≤ applicationBase)
    (hgood : GoodFile m ehdr len) (hget : GetProgramHeader m ehdr = phdr)
    (hphdr : phdr = ehdr + e_phoff m ehdr) :
    ∀ a ∈ (firstLoadAddress m ehdr phdr fuel i).1, Confined ehdr len a := by
  have hbase : applicationBase = 0xffff800000000000 := rfl
  have hheader := hgood.header
  have hnumRead : Confined ehdr len (.read (ehdr + 56) 2) :=
    (confined_read_iff hbuf (by decide) (by omega)).mpr ⟨by omega, by omega⟩
  induction fuel generalizing i with
  | zero => exact fun a h => absurd h List.not_mem_nil
  | succ fuel ih =>
    rw [firstLoadAddress]
    split
    · rename_i hlt
      obtain ⟨hin, hload⟩ := hgood.programHeaders i hlt
      have hat : phdrAt phdr i = phdr + 56 * i := rfl
      have htypeRead : Confined ehdr len (.read (phdrAt phdr i) 4) :=
        (confined_read_iff hbuf (by decide) (by omega)).mpr ⟨by omega, by omega⟩
      split
      · simp only [List.forall_mem_cons, hnumRead, htypeRead, true_and]
        exact ih
      · rename_i htype
        have hin48 := (hload (hget.symm ▸ not_not.mp htype)).1
        have hvaddrRead : Confined ehdr len (.read (phdrAt phdr i + 16) 8) :=
          (confined_read_iff hbuf (by decide) (by omega)).mpr ⟨by omega, by omega⟩
        simp only [List.forall_mem_cons, hnumRead, htypeRead, hvaddrRead, true_and]
        exact fun a h => absurd h List.not_mem_nil
    · simpa using hnumRead

/-- What an accepted file has gone through. -/
theorem accepted (hok : (LoadELF m ehdr setupPageMaps).result.error = .kSuccess) :
    0 < e_phnum m ehdr ∧ (CopyLoadSegments m ehdr setupPageMaps).result.error = .kSuccess ∧
      (LoadELF m ehdr setupPageMaps).accesses = .read (ehdr + 16) 2 ::
        ((GetFirstLoadAddress m ehdr).1 ++ (CopyLoadSegments m ehdr setupPageMaps).accesses) := by
  rw [LoadELF] at hok ⊢
  split at hok
  · cases hok
  · rename_i htype
    rw [if_neg htype]
    dsimp only at hok ⊢
    split at hok
    · cases hok
    · rename_i haddr
      rw [if_neg haddr]
      refine ⟨Nat.pos_of_ne_zero fun h0 => haddr ?_, hok, rfl⟩
      rw [GetFirstLoadAddress]
      dsimp only
      rw [firstLoadAddress_of_none _ h0]
      decide

/-- An accepted file is loaded without an access outside of its place just when it is good: when its
headers lie in the file, and each segment has its bytes in the file and its addresses below the stack in
the application half. -/
theorem loadELF_confined_iff (hbuf : ehdr + len ≤ applicationBase)
    (hok : (LoadELF m ehdr setupPageMaps).result.error = .kSuccess) :
    (∀ a ∈ (LoadELF m ehdr setupPageMaps).accesses, Confined ehdr len a) ↔
      GoodFile m ehdr len := by
  have hbase : applicationBase = 0xffff800000000000 := rfl
  obtain ⟨hnum, hcopy, haccesses⟩ := accepted hok
  have hnum_lt : e_phnum m ehdr < 2 ^ 16 := load_lt m (ehdr + 56) 2
  have hphoff := lt_of_load m (ehdr + 32)
  generalize hget : GetProgramHeader m ehdr = phdr at *
  have hwrap : phdr = (ehdr + e_phoff m ehdr) % 2 ^ 64 := hget.symm
  rw [e_phoff] at hwrap
  have hcopied : (copyLoop ehdr setupPageMaps phdr (2 ^ 16) 0 m 0).result.error = .kSuccess :=
    hget ▸ hcopy
  have hcopyAccesses : (CopyLoadSegments m ehdr setupPageMaps).accesses = .read (ehdr + 32) 8 ::
      (copyLoop ehdr setupPageMaps phdr (2 ^ 16) 0 m 0).accesses := by
    rw [CopyLoadSegments, hget]
  have hiff (hheader : 58 ≤ len) (hphdr : phdr = ehdr + e_phoff m ehdr)
      (hlt : phdr < ehdr + len) := copyLoop_confined_iff hbuf hheader hphdr hlt hget
    (fun _ _ _ => rfl) (by decide) (by omega) hcopied
  rw [haccesses, hcopyAccesses]
  constructor
  · intro h
    simp only [List.forall_mem_cons, List.forall_mem_append] at h
    obtain ⟨-, -, -, hloop⟩ := h
    obtain ⟨hnumMem, htypeMem, -⟩ := reads_of_copyLoop setupPageMaps phdr (2 ^ 16 - 1) 0 hnum
    have hat : phdrAt phdr 0 = phdr := rfl
    have hnumRead := (confined_read_iff hbuf (by decide) (by omega)).mp (hloop _ hnumMem)
    have htypeRead := (confined_read_iff hbuf (by decide) (by omega)).mp (hloop _ htypeMem)
    have hphdr : phdr = ehdr + e_phoff m ehdr := by
      rw [e_phoff]
      omega
    have hgood := (hiff (by omega) hphdr (by omega)).mp hloop
    exact ⟨by omega, fun j hj => hgood j (Nat.zero_le _) hj⟩
  · intro hgood
    have hheader := hgood.header
    have hfirst := (hgood.programHeaders 0 hnum).type_in_file
    rw [e_phoff] at hfirst
    have hphdr : phdr = ehdr + e_phoff m ehdr := by
      rw [e_phoff]
      omega
    have hloop := (hiff hheader hphdr (by rw [hphdr, e_phoff]; omega)).mpr fun j _ hj =>
      hgood.programHeaders j hj
    have htypeRead : Confined ehdr len (.read (ehdr + 16) 2) :=
      (confined_read_iff hbuf (by decide) (by omega)).mpr ⟨by omega, by omega⟩
    have hoffRead : Confined ehdr len (.read (ehdr + 32) 8) :=
      (confined_read_iff hbuf (by decide) (by omega)).mpr ⟨by omega, by omega⟩
    simp only [List.forall_mem_cons, List.forall_mem_append, GetFirstLoadAddress, hget, htypeRead,
      hoffRead, true_and]
    exact ⟨firstLoadAddress_confined hbuf hgood hget hphdr, hloop⟩

/-! ## Two files -/

/-- The `n` bytes of a little-endian number. -/
def littleEndian (n value : Nat) : List UInt8 :=
  (List.range n).map fun k => UInt8.ofNat (value / 256 ^ k % 256)

/-- A program header of type `PT_LOAD`. -/
def loadHeader (offset vaddr filesz memsz : Nat) : List UInt8 :=
  littleEndian 4 PT_LOAD ++ littleEndian 4 0 ++ littleEndian 8 offset ++ littleEndian 8 vaddr ++
    littleEndian 8 0 ++ littleEndian 8 filesz ++ littleEndian 8 memsz ++ littleEndian 8 0

/-- An executable with program headers only, in the buffer at `0x200000`. -/
def executable (headers : List (List UInt8)) : FlatMemory.Memory := fun a =>
  let bytes := .replicate 16 0 ++ littleEndian 2 ET_EXEC ++ .replicate 14 0 ++ littleEndian 8 64 ++
    .replicate 16 0 ++ littleEndian 2 headers.length ++ .replicate 6 0 ++ headers.flatten
  if 0x200000 ≤ a then bytes.getD (a - 0x200000) 0 else 0

/-- One segment, with its file and some zeros behind it. -/
def oneSegment : FlatMemory.Memory := executable [loadHeader 0 0xffff800000000000 120 4096]

theorem oneSegment_good : GoodFile oneSegment 0x200000 120 := by
  refine ⟨by decide, fun i hi => ?_⟩
  have hnum : e_phnum oneSegment 0x200000 = 1 := by decide +kernel
  obtain rfl : i = 0 := by omega
  exact ⟨by decide +kernel, fun _ => by decide +kernel⟩

theorem loadELF_confined_iff_oneSegment : GoodFile oneSegment 0x200000 120 ∧
    ∀ a ∈ (LoadELF oneSegment 0x200000 fun _ _ => .kSuccess).accesses, Confined 0x200000 120 a :=
  ⟨oneSegment_good, (loadELF_confined_iff (by decide) (by decide +kernel)).mpr oneSegment_good⟩

/-- A second segment that goes over eight bytes of the kernel. -/
def hostileSegment : FlatMemory.Memory :=
  executable [loadHeader 0 0xffff800000000000 120 4096, loadHeader 0 0x100000 8 8]

theorem not_loadELF_confined_hostileSegment :
    (LoadELF hostileSegment 0x200000 fun _ _ => .kSuccess).result.error = .kSuccess ∧
      .write 0x100000 8 ∈ (LoadELF hostileSegment 0x200000 fun _ _ => .kSuccess).accesses ∧
      ¬ ∀ a ∈ (LoadELF hostileSegment 0x200000 fun _ _ => .kSuccess).accesses,
        Confined 0x200000 176 a := by
  have hmem : .write 0x100000 8 ∈
      (LoadELF hostileSegment 0x200000 fun _ _ => .kSuccess).accesses := by decide +kernel
  refine ⟨by decide +kernel, hmem, fun h => ?_⟩
  have hlow := (h _ hmem 0 (by decide)).1
  exact absurd hlow (by decide)

end MikanOS.Elf
