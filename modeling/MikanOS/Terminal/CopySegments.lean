import MikanOS.Paging.ApplicationHalf
import MikanOS.Paging.Instances
import MikanOS.Terminal.LoadElf

/-! # Copying segments through the page maps

`CopyLoadSegments` of `terminal.cpp` on the machine: it sets up the pages of each segment and then writes to
the segment's addresses. The file is in a buffer of the kernel's half, which neither of them touches. -/

namespace MikanOS

open LinearAddress4Level Elf

/-- The machine, and the addresses at which the kernel has met a page that is not present. -/
structure Loading where
  m : Machine
  faults : List LinearAddress4Level

variable (task : PagingTask) (file : FlatMemory.Memory) (ehdr : Nat)

namespace Loading

/-- A store of the kernel. At a missing page `IntHandlerPF` goes back to it if `HandlePageFault` succeeds,
and stops the kernel otherwise. -/
def store (s : Loading) (a : Nat) (b : UInt8) : Option Loading :=
  match s.m.supervisorStore (ofValue a) b with
  | .ok m => some { s with m }
  | .error (.pageFault errorCode) =>
    let (err, m) := s.m.handlePageFault task errorCode (ofValue a)
    if err = .kSuccess then
      match m.supervisorStore (ofValue a) b with
      | .ok m => some ⟨m, ofValue a :: s.faults⟩
      | .error _ => none
    else none
  | .error .generalProtection => none

/-- The stores of `memcpy` and `memset`. -/
def storeBytes (s : Loading) (a : Nat) : List UInt8 → Option Loading
  | [] => some s
  | b :: bytes => (s.store task a b).bind fun s => s.storeBytes (a + 1) bytes

/-- The loop of `CopyLoadSegments` over the numbers of program headers. -/
def copySegments (s : Loading) (lastAddr : Nat) : List Nat → Option (WithError Nat × Loading)
  | [] => some (⟨lastAddr, .kSuccess⟩, s)
  | i :: is =>
    let phdr := GetProgramHeader file ehdr
    if p_type file phdr i ≠ PT_LOAD then s.copySegments lastAddr is
    else
      let vaddr := p_vaddr file phdr i
      let memsz := p_memsz file phdr i
      let filesz := p_filesz file phdr i
      let lastAddr := max lastAddr ((vaddr + memsz) % 2 ^ 64)
      let num4kpages := (memsz + 4095) % 2 ^ 64 / 4096
      let (err, m) := s.m.setupPageMaps (ofValue vaddr) num4kpages false
      if err = .kSuccess then
        let src := (ehdr + p_offset file phdr i) % 2 ^ 64
        let copied := { s with m }.storeBytes task vaddr
          ((List.range filesz).map fun k => file ((src + k) % 2 ^ 64))
        let filled := copied.bind fun s =>
          s.storeBytes task (vaddr + filesz) (List.replicate ((memsz + 2 ^ 64 - filesz) % 2 ^ 64) 0)
        filled.bind fun s => s.copySegments lastAddr is
      else some (⟨lastAddr, err⟩, { s with m })

end Loading

/-- `CopyLoadSegments`; there is no result if the kernel was stopped. -/
def Machine.copyLoadSegments (m : Machine) : Option (WithError Nat × Loading) :=
  (Loading.mk m []).copySegments task file ehdr 0 (List.range (e_phnum file ehdr))

namespace Elf

/-- The header with this number is that of a segment. -/
def Loads (i : Nat) : Prop :=
  i < e_phnum file ehdr ∧ p_type file (GetProgramHeader file ehdr) i = PT_LOAD

def segmentStart (i : Nat) : Nat := p_vaddr file (GetProgramHeader file ehdr) i

/-- The address behind a segment. -/
def segmentEnd (i : Nat) : Nat := segmentStart file ehdr i + p_memsz file (GetProgramHeader file ehdr) i

/-- A byte of a segment: that of the file, or zero. -/
def segmentByte (i k : Nat) : UInt8 :=
  if k < p_filesz file (GetProgramHeader file ehdr) i then
    file ((ehdr + p_offset file (GetProgramHeader file ehdr) i + k) % 2 ^ 64)
  else 0

/-- The segments lie in the upper half and apart from each other, with no more in the file than in
memory. -/
structure LoadableFile : Prop where
  upper : ∀ i, Loads file ehdr i →
    applicationBase ≤ segmentStart file ehdr i ∧ segmentEnd file ehdr i ≤ 2 ^ 64
  filesz : ∀ i, Loads file ehdr i →
    p_filesz file (GetProgramHeader file ehdr) i ≤ p_memsz file (GetProgramHeader file ehdr) i
  disjoint : ∀ i j a, Loads file ehdr i → Loads file ehdr j → i ≠ j →
    segmentStart file ehdr i ≤ a → a < segmentEnd file ehdr i →
      segmentStart file ehdr j ≤ a → segmentEnd file ehdr j ≤ a

/-- The number of pages that are set up for a segment. -/
def segmentPages (i : Nat) : Nat := (p_memsz file (GetProgramHeader file ehdr) i + 4095) / 4096

/-- The page with this number is set up for a segment. -/
def SetsUpPage (i page : Nat) : Prop :=
  segmentStart file ehdr i / 4096 ≤ page ∧
    page < segmentStart file ehdr i / 4096 + segmentPages file ehdr i

/-- The last page of each segment is set up, for the segment itself or for one before it, and no segment
goes up to the last address. -/
structure CoversPages : Prop where
  lastPage : ∀ i, Loads file ehdr i → segmentStart file ehdr i < segmentEnd file ehdr i →
    ∃ j ≤ i, Loads file ehdr j ∧ SetsUpPage file ehdr j ((segmentEnd file ehdr i - 1) / 4096)
  ends : ∀ i, Loads file ehdr i → segmentEnd file ehdr i < 2 ^ 64

end Elf

/-- The segments are in memory, no page was missing, and `last_addr` is the largest end of a segment. -/
structure SegmentsLoaded (lastAddr : Nat) (s : Loading) : Prop where
  noFault : s.faults = []
  bytes : ∀ i, Loads file ehdr i → ∀ k, segmentStart file ehdr i + k < segmentEnd file ehdr i →
    view s.m.mem (ofValue (segmentStart file ehdr i + k)) s.m.cr3 = some (segmentByte file ehdr i k)
  lastAddr : IsLUB {e | ∃ i, Loads file ehdr i ∧ e = segmentEnd file ehdr i} lastAddr

variable {task file ehdr} {s s' s₁ : Loading} {m : Machine} {a i cnt lastAddr : Nat} {b : UInt8}
  {bytes : List UInt8} {is : List Nat} {r : WithError Nat × Loading}

/-! ## Faults are not forgotten -/

namespace Loading

theorem store_faults (h : s.store task a b = some s') :
    s'.faults = s.faults ∨ s'.faults = ofValue a :: s.faults := by
  rw [store] at h
  split at h
  · obtain rfl := Option.some.inj h
    exact .inl rfl
  · rw [Option.ite_none_right_eq_some] at h
    obtain ⟨-, h⟩ := h
    split at h
    · obtain rfl := Option.some.inj h
      exact .inr rfl
    · cases h
  · cases h

theorem store_faults_le (h : s.store task a b = some s') : s.faults.length ≤ s'.faults.length := by
  rcases store_faults h with heq | heq
  · rw [heq]
  · rw [heq]
    exact Nat.le_succ _

theorem storeBytes_faults_le (h : s.storeBytes task a bytes = some s') :
    s.faults.length ≤ s'.faults.length := by
  induction bytes generalizing s a with
  | nil =>
    obtain rfl := Option.some.inj h
    exact le_rfl
  | cons b bytes ih =>
    obtain ⟨s₁, h₁, h₂⟩ := Option.bind_eq_some_iff.mp h
    exact (store_faults_le h₁).trans (ih h₂)

end Loading

/-- What one turn of the loop does for a segment once its pages are set up. -/
def Loading.copySegment (task : PagingTask) (file : FlatMemory.Memory) (ehdr i : Nat) (s : Loading) :
    Option Loading :=
  let phdr := GetProgramHeader file ehdr
  let src := (ehdr + p_offset file phdr i) % 2 ^ 64
  (s.storeBytes task (p_vaddr file phdr i)
    ((List.range (p_filesz file phdr i)).map fun k => file ((src + k) % 2 ^ 64))).bind fun s =>
      s.storeBytes task (p_vaddr file phdr i + p_filesz file phdr i)
        (List.replicate ((p_memsz file phdr i + 2 ^ 64 - p_filesz file phdr i) % 2 ^ 64) 0)

namespace Loading

/-- One turn of the loop: no segment, a segment whose pages cannot be set up, or one that is copied. -/
theorem copySegments_cases (h : s.copySegments task file ehdr lastAddr (i :: is) = some r) :
    (p_type file (GetProgramHeader file ehdr) i ≠ PT_LOAD ∧
      s.copySegments task file ehdr lastAddr is = some r) ∨
    p_type file (GetProgramHeader file ehdr) i = PT_LOAD ∧ ∃ err m,
      s.m.setupPageMaps (ofValue (segmentStart file ehdr i))
        ((p_memsz file (GetProgramHeader file ehdr) i + 4095) % 2 ^ 64 / 4096) false = (err, m) ∧
      ((err ≠ .kSuccess ∧
          r = (⟨max lastAddr (segmentEnd file ehdr i % 2 ^ 64), err⟩, { s with m })) ∨
        (err = .kSuccess ∧ ∃ s₁, { s with m }.copySegment task file ehdr i = some s₁ ∧
          s₁.copySegments task file ehdr (max lastAddr (segmentEnd file ehdr i % 2 ^ 64)) is = some r)) := by
  rw [copySegments] at h
  by_cases htype : p_type file (GetProgramHeader file ehdr) i = PT_LOAD
  · refine .inr ⟨htype, ?_⟩
    rw [if_neg (not_not.mpr htype)] at h
    rw [segmentEnd, segmentStart]
    dsimp only at h
    generalize s.m.setupPageMaps (ofValue (p_vaddr file (GetProgramHeader file ehdr) i)) _ false = setup
      at h ⊢
    obtain ⟨err, m⟩ := setup
    refine ⟨err, m, rfl, ?_⟩
    dsimp only at h
    split at h
    · next herr => exact .inr ⟨herr, Option.bind_eq_some_iff.mp h⟩
    · next herr => exact .inl ⟨herr, (Option.some.inj h).symm⟩
  · rw [if_pos htype] at h
    exact .inl ⟨htype, h⟩

theorem copySegment_faults_le (h : s.copySegment task file ehdr i = some s') :
    s.faults.length ≤ s'.faults.length := by
  rw [copySegment, Option.bind_eq_some_iff] at h
  obtain ⟨s₁, h₁, h₂⟩ := h
  exact (storeBytes_faults_le h₁).trans (storeBytes_faults_le h₂)

theorem copySegments_faults_le (h : s.copySegments task file ehdr lastAddr is = some r) :
    s.faults.length ≤ r.2.faults.length := by
  induction is generalizing s lastAddr with
  | nil =>
    obtain rfl := Option.some.inj h
    exact le_rfl
  | cons i is ih =>
    rcases copySegments_cases h with ⟨-, hrest⟩ | ⟨-, err, m, -, ⟨-, rfl⟩ | ⟨-, s₁, hcopy, hrest⟩⟩
    · exact ih hrest
    · exact le_rfl
    · exact (copySegment_faults_le hcopy).trans (ih hrest)

/-- The address that is returned: the largest end of a segment as 64 bits hold it. -/
theorem copySegments_lastAddr (h : s.copySegments task file ehdr lastAddr is = some r)
    (hok : r.1.error = .kSuccess) : lastAddr ≤ r.1.value ∧
      (∀ i ∈ is, p_type file (GetProgramHeader file ehdr) i = PT_LOAD →
        segmentEnd file ehdr i % 2 ^ 64 ≤ r.1.value) ∧
      (r.1.value = lastAddr ∨ ∃ i ∈ is, p_type file (GetProgramHeader file ehdr) i = PT_LOAD ∧
        r.1.value = segmentEnd file ehdr i % 2 ^ 64) := by
  induction is generalizing s lastAddr with
  | nil =>
    obtain rfl := Option.some.inj h
    exact ⟨le_rfl, fun i hi => absurd hi List.not_mem_nil, .inl rfl⟩
  | cons i is ih =>
    rcases copySegments_cases h with
      ⟨htype, hrest⟩ | ⟨htype, err, m, -, ⟨herr, rfl⟩ | ⟨-, s₁, -, hrest⟩⟩
    · obtain ⟨hle, hall, hattained⟩ := ih hrest
      refine ⟨hle, List.forall_mem_cons.mpr ⟨fun h => absurd h htype, hall⟩, ?_⟩
      exact hattained.imp_right fun ⟨j, hj, hjload⟩ => ⟨j, List.mem_cons_of_mem i hj, hjload⟩
    · exact absurd hok herr
    · obtain ⟨hle, hall, hattained⟩ := ih hrest
      obtain ⟨hlast, hend⟩ := max_le_iff.mp hle
      refine ⟨hlast, List.forall_mem_cons.mpr ⟨fun _ => hend, hall⟩, ?_⟩
      rcases hattained with heq | ⟨j, hj, hjload, heq⟩
      · rcases max_choice lastAddr (segmentEnd file ehdr i % 2 ^ 64) with hmax | hmax
        · exact .inl (heq.trans hmax)
        · exact .inr ⟨i, List.mem_cons_self, htype, heq.trans hmax⟩
      · exact .inr ⟨j, List.mem_cons_of_mem i hj, hjload, heq⟩

end Loading

/-! ## The memory with holes -/

/-- A segment of the file, if the header is that of one. -/
def Elf.elfSegment (file : FlatMemory.Memory) (ehdr i : Nat) : SparseMemory.Segment UInt8 :=
  if p_type file (GetProgramHeader file ehdr) i = PT_LOAD then {
    start := segmentStart file ehdr i
    bytes := (List.range (p_memsz file (GetProgramHeader file ehdr) i)).map (segmentByte file ehdr i)
    holes := {a | SetsUpPage file ehdr i (a / 4096)} }
  else ⟨0, [], ∅⟩

/-- A step has done to the upper half what was to be done to the memory with holes; where that fails, the
kernel has met a missing page. -/
def Refines (s s' : Loading) (mem : Option (SparseMemory.Memory UInt8)) : Prop :=
  (s'.faults = s.faults ∧ s'.m.ApplicationHalf ∧ mem = some s'.m.image) ∨
    (s.faults.length < s'.faults.length ∧ mem = none)

theorem Refines.bind {mem : Option (SparseMemory.Memory UInt8)}
    {f : SparseMemory.Memory UInt8 → Option (SparseMemory.Memory UInt8)} (h : Refines s s₁ mem)
    (hrest : s₁.m.ApplicationHalf → Refines s₁ s' (f s₁.m.image))
    (hle : s₁.faults.length ≤ s'.faults.length) : Refines s s' (mem.bind f) := by
  rcases h with ⟨hfaults, hhalf, rfl⟩ | ⟨hlt, rfl⟩
  · have hrest := hrest hhalf
    rw [Refines, hfaults] at hrest
    exact hrest
  · exact .inr ⟨hlt.trans_le hle, rfl⟩

namespace Loading

theorem store_refines (h : s.m.ApplicationHalf) (ha : UpperHalf a) (hrun : s.store task a b = some s') :
    Refines s s' (if (s.m.image a).isSome then some (Function.update s.m.image a (some b)) else none) := by
  cases himage : s.m.image a with
  | some c =>
    obtain ⟨m', hstore, hhalf, himage'⟩ := h.supervisorStore ha (himage ▸ rfl) b
    rw [store, hstore] at hrun
    obtain rfl := Option.some.inj hrun
    rw [if_pos (Option.isSome_some), ← himage']
    exact .inl ⟨rfl, hhalf, rfl⟩
  | none =>
    rw [store, Machine.supervisorStore_hole ha himage] at hrun
    rw [if_neg (by decide)]
    obtain ⟨-, hrun⟩ := Option.ite_none_right_eq_some.mp hrun
    split at hrun
    · obtain rfl := Option.some.inj hrun
      exact .inr ⟨Nat.lt_succ_self _, rfl⟩
    · cases hrun

theorem storeBytes_refines (h : s.m.ApplicationHalf) (hupper : ∀ k < bytes.length, UpperHalf (a + k))
    (hrun : s.storeBytes task a bytes = some s') :
    Refines s s' (SparseMemory.store s.m.image a bytes) := by
  induction bytes generalizing s a with
  | nil =>
    obtain rfl := Option.some.inj hrun
    exact .inl ⟨rfl, h, rfl⟩
  | cons b bytes ih =>
    obtain ⟨s₁, h₁, h₂⟩ := Option.bind_eq_some_iff.mp hrun
    rw [SparseMemory.store_cons]
    refine (store_refines h (hupper 0 (Nat.succ_pos _)) h₁).bind (fun hhalf => ?_)
      (storeBytes_faults_le h₂)
    refine ih hhalf (fun k hk => ?_) h₂
    rw [Nat.add_right_comm]
    exact hupper (k + 1) (Nat.succ_lt_succ hk)

end Loading

/-- The bytes of a segment: those copied from the file, and the zeros behind them. -/
theorem segmentBytes_eq
    (h : p_filesz file (GetProgramHeader file ehdr) i ≤ p_memsz file (GetProgramHeader file ehdr) i) :
    (List.range (p_memsz file (GetProgramHeader file ehdr) i)).map (segmentByte file ehdr i) =
      ((List.range (p_filesz file (GetProgramHeader file ehdr) i)).map fun k =>
        file (((ehdr + p_offset file (GetProgramHeader file ehdr) i) % 2 ^ 64 + k) % 2 ^ 64)) ++
      List.replicate (p_memsz file (GetProgramHeader file ehdr) i -
        p_filesz file (GetProgramHeader file ehdr) i) 0 := by
  obtain ⟨zeros, hzeros⟩ := Nat.exists_eq_add_of_le h
  rw [hzeros, Nat.add_sub_cancel_left, List.range_add, List.map_append, List.map_map]
  refine congrArg₂ _ ?_ ?_
  · refine List.map_congr_left fun k hk => ?_
    rw [segmentByte, if_pos (List.mem_range.mp hk), Nat.mod_add_mod]
  · refine List.eq_replicate_iff.mpr ⟨by rw [List.length_map, List.length_range], fun b hb => ?_⟩
    obtain ⟨k, -, rfl⟩ := List.mem_map.mp hb
    rw [Function.comp_apply, segmentByte, if_neg (Nat.not_lt.mpr (Nat.le_add_right _ _))]

/-- The addresses of a segment are in the upper half. -/
theorem Elf.LoadableFile.upperHalf (F : LoadableFile file ehdr) (hload : Loads file ehdr i)
    (hlo : segmentStart file ehdr i ≤ a) (hhi : a < segmentEnd file ehdr i) : UpperHalf a := by
  obtain ⟨hbase, hend⟩ := F.upper i hload
  rw [applicationBase] at hbase
  exact ⟨by omega, by omega⟩

/-- The size of a segment fits the upper half. -/
theorem Elf.LoadableFile.memsz_le (F : LoadableFile file ehdr) (hload : Loads file ehdr i) :
    p_memsz file (GetProgramHeader file ehdr) i ≤ 2 ^ 47 := by
  obtain ⟨hbase, hend⟩ := F.upper i hload
  rw [applicationBase] at hbase
  rw [segmentEnd] at hend
  omega

/-- The stores for a segment go to the upper half. -/
theorem Elf.LoadableFile.stores (F : LoadableFile file ehdr) (hload : Loads file ehdr i)
    (hrun : s.copySegment task file ehdr i = some s') : ∃ s₁ bytes zeros,
      s.storeBytes task (segmentStart file ehdr i) bytes = some s₁ ∧
      s₁.storeBytes task (segmentStart file ehdr i + bytes.length) zeros = some s' ∧
      bytes ++ zeros =
        (List.range (p_memsz file (GetProgramHeader file ehdr) i)).map (segmentByte file ehdr i) ∧
      (∀ k < bytes.length, UpperHalf (segmentStart file ehdr i + k)) ∧
      ∀ k < zeros.length, UpperHalf (segmentStart file ehdr i + bytes.length + k) := by
  have hfilesz := F.filesz i hload
  have hmemsz := F.memsz_le hload
  have hend : segmentEnd file ehdr i =
    segmentStart file ehdr i + p_memsz file (GetProgramHeader file ehdr) i := rfl
  have hzeros : (p_memsz file (GetProgramHeader file ehdr) i + 2 ^ 64 -
      p_filesz file (GetProgramHeader file ehdr) i) % 2 ^ 64 =
      p_memsz file (GetProgramHeader file ehdr) i - p_filesz file (GetProgramHeader file ehdr) i := by
    omega
  rw [Loading.copySegment, Option.bind_eq_some_iff, hzeros] at hrun
  obtain ⟨s₁, h₁, h₂⟩ := hrun
  refine ⟨s₁, _, _, h₁, ?_, (segmentBytes_eq hfilesz).symm, fun k hk => ?_, fun k hk => ?_⟩
  · rw [List.length_map, List.length_range]
    exact h₂
  · rw [List.length_map, List.length_range] at hk
    exact F.upperHalf hload (Nat.le_add_right _ _) (by omega)
  · rw [List.length_map, List.length_range]
    rw [List.length_replicate] at hk
    exact F.upperHalf hload (by omega) (by omega)

theorem Loading.copySegment_refines (h : s.m.ApplicationHalf) (F : LoadableFile file ehdr)
    (hload : Loads file ehdr i) (hrun : s.copySegment task file ehdr i = some s') :
    Refines s s' (SparseMemory.store s.m.image (segmentStart file ehdr i)
      ((List.range (p_memsz file (GetProgramHeader file ehdr) i)).map (segmentByte file ehdr i))) := by
  obtain ⟨s₁, bytes, zeros, h₁, h₂, hall, hbytes, hzeros⟩ := F.stores hload hrun
  rw [← hall, SparseMemory.store_append]
  exact (storeBytes_refines h hbytes h₁).bind (fun hhalf => storeBytes_refines hhalf hzeros h₂)
    (storeBytes_faults_le h₂)

/-- The pages of a segment are set up. -/
theorem Machine.ApplicationHalf.setupSegment (h : m.ApplicationHalf) (F : LoadableFile file ehdr)
    (hload : Loads file ehdr i) {num4kpages : Nat} (hnum : num4kpages = segmentPages file ehdr i)
    (hok : (m.setupPageMaps (ofValue (segmentStart file ehdr i)) num4kpages false).1 = .kSuccess) :
    (m.setupPageMaps (ofValue (segmentStart file ehdr i)) num4kpages false).2.ApplicationHalf ∧
      (m.setupPageMaps (ofValue (segmentStart file ehdr i)) num4kpages false).2.image =
        SparseMemory.fillHoles m.image {a | SetsUpPage file ehdr i (a / 4096)} 0 := by
  obtain ⟨hbase, hend⟩ := F.upper i hload
  rw [applicationBase] at hbase
  rw [segmentEnd] at hend
  have hstart : UpperHalf (segmentStart file ehdr i) := ⟨by omega, lt_of_load file _⟩
  have hnumber := hstart.pageNumber
  have S := setupPageMaps_setsUp h.wellFormed h.rangeEnd (hugeFree_of_entries fun addr' hin l hl => by
    refine h.plain addr' l ?_ hl
    have hle : _ ≤ addr'.page.val + 512 * (addr'.dir + 512 * (addr'.pdp + 512 * addr'.pml4)) := hin.1
    have h1 := addr'.page.isLt
    have h2 := addr'.dir.isLt
    have h3 := addr'.pdp.isLt
    omega) hok
  refine ⟨h.setsUp S, (h.image_setsUp S).trans ?_⟩
  congr 1
  ext a
  rw [Set.mem_ofPred_eq, Set.mem_ofPred_eq, SetsUpPage, InPages, hnum, segmentPages]
  constructor
  · rintro ⟨ha, hlo, hhi⟩
    have hnumber' := ha.pageNumber
    omega
  · rintro ⟨hlo, hhi⟩
    have ha : UpperHalf a := ⟨by omega, by omega⟩
    have hnumber' := ha.pageNumber
    exact ⟨ha, by omega, by omega⟩

/-! ## The loop -/

theorem Elf.elfSegment_load (hload : p_type file (GetProgramHeader file ehdr) i = PT_LOAD) :
    elfSegment file ehdr i = {
      start := segmentStart file ehdr i
      bytes := (List.range (p_memsz file (GetProgramHeader file ehdr) i)).map (segmentByte file ehdr i)
      holes := {a | SetsUpPage file ehdr i (a / 4096)} } := if_pos hload

theorem Elf.elfSegment_skip (hload : p_type file (GetProgramHeader file ehdr) i ≠ PT_LOAD) :
    elfSegment file ehdr i = ⟨0, [], ∅⟩ := if_neg hload

/-- The loop loads the segments one after the other into the upper half. -/
theorem Loading.copySegments_refines (h : s.m.ApplicationHalf) (F : LoadableFile file ehdr)
    (hloaded : SparseMemory.load 0 (elfSegment file ehdr) i = some s.m.image)
    (hcnt : i + cnt = e_phnum file ehdr)
    (hrun : s.copySegments task file ehdr lastAddr (List.range' i cnt) = some r)
    (hok : r.1.error = .kSuccess) :
    Refines s r.2 (SparseMemory.load 0 (elfSegment file ehdr) (i + cnt)) := by
  induction cnt generalizing i s lastAddr with
  | zero =>
    obtain rfl := Option.some.inj hrun
    exact .inl ⟨rfl, h, hloaded⟩
  | succ cnt ih =>
    have hcnt' : i + (cnt + 1) = i + 1 + cnt := by omega
    have hstep := SparseMemory.load_succ hloaded
    rw [List.range'_succ] at hrun
    rcases copySegments_cases hrun with
      ⟨htype, hrest⟩ | ⟨htype, err, m, hsetup, ⟨herr, rfl⟩ | ⟨herr, s₁, hcopy, hrest⟩⟩
    · rw [elfSegment_skip htype, SparseMemory.loadSegment, SparseMemory.fillHoles_empty] at hstep
      rw [hcnt']
      exact ih h hstep (hcnt' ▸ hcnt) hrest
    · exact absurd hok herr
    · have hload : Loads file ehdr i := ⟨by omega, htype⟩
      have hmemsz := F.memsz_le hload
      obtain ⟨hhalf, himage⟩ := h.setupSegment F hload (by rw [segmentPages]; omega)
        ((congrArg Prod.fst hsetup).trans herr)
      rw [hsetup] at hhalf himage
      have hturn := copySegment_refines hhalf F hload hcopy
      rw [elfSegment_load htype, SparseMemory.loadSegment] at hstep
      dsimp only at hturn hstep himage
      rw [himage, ← hstep] at hturn
      rcases hturn with ⟨hfaults, hhalf₁, hloaded₁⟩ | ⟨hlt, hnone⟩
      · have hall := ih hhalf₁ hloaded₁ (hcnt' ▸ hcnt) hrest
        rw [Refines, hfaults] at hall
        rw [hcnt']
        exact hall
      · refine .inr ⟨hlt.trans_le (copySegments_faults_le hrest), ?_⟩
        exact SparseMemory.load_none hnone (by omega)

/-! ## When all bytes have their pages -/

theorem Elf.length_elfSegment (hload : Loads file ehdr i) :
    (elfSegment file ehdr i).bytes.length = p_memsz file (GetProgramHeader file ehdr) i := by
  rw [elfSegment_load hload.2, List.length_map, List.length_range]

/-- A header of another type has neither bytes nor pages. -/
theorem Elf.loads_of_elfSegment (hi : i < e_phnum file ehdr)
    (h : (elfSegment file ehdr i).bytes ≠ [] ∨ ∃ a, a ∈ (elfSegment file ehdr i).holes) :
    Loads file ehdr i := by
  refine ⟨hi, ?_⟩
  by_contra htype
  rw [elfSegment_skip htype] at h
  rcases h with h | ⟨a, ha⟩
  · exact h rfl
  · exact ha

/-- Only the last page of a segment can be missing. -/
theorem Elf.isSome_load_iff : (SparseMemory.load 0 (elfSegment file ehdr) (e_phnum file ehdr)).isSome ↔
      ∀ i, Loads file ehdr i → segmentStart file ehdr i < segmentEnd file ehdr i →
        ∃ j ≤ i, Loads file ehdr j ∧ SetsUpPage file ehdr j ((segmentEnd file ehdr i - 1) / 4096) := by
  rw [SparseMemory.isSome_load]
  constructor
  · intro hall i hload hlt
    have hend : segmentEnd file ehdr i =
      segmentStart file ehdr i + p_memsz file (GetProgramHeader file ehdr) i := rfl
    obtain ⟨j, hj, hmem⟩ := hall i hload.1 (segmentEnd file ehdr i - 1 - segmentStart file ehdr i) (by
      rw [length_elfSegment hload]
      omega)
    have hjload := loads_of_elfSegment (hj.trans_lt hload.1) (.inr ⟨_, hmem⟩)
    rw [elfSegment_load hload.2, elfSegment_load hjload.2] at hmem
    dsimp only at hmem
    rw [Nat.add_sub_cancel' (by omega)] at hmem
    exact ⟨j, hj, hjload, hmem⟩
  · intro hall i hi k hk
    have hload : Loads file ehdr i := loads_of_elfSegment hi (.inl fun hnil => by
      rw [hnil] at hk
      exact absurd hk (Nat.not_lt_zero k))
    have hend : segmentEnd file ehdr i =
      segmentStart file ehdr i + p_memsz file (GetProgramHeader file ehdr) i := rfl
    rw [length_elfSegment hload] at hk
    obtain ⟨j, hj, hjload, hlast⟩ := hall i hload (by omega)
    by_cases hown : (segmentStart file ehdr i + k) / 4096 <
        segmentStart file ehdr i / 4096 + segmentPages file ehdr i
    · refine ⟨i, le_rfl, ?_⟩
      rw [elfSegment_load hload.2]
      exact ⟨Nat.div_le_div_right (Nat.le_add_right _ _), hown⟩
    · refine ⟨j, hj, ?_⟩
      rw [elfSegment_load hload.2, elfSegment_load hjload.2]
      have hpage : (segmentStart file ehdr i + k) / 4096 = (segmentEnd file ehdr i - 1) / 4096 := by
        rw [segmentPages] at hown
        omega
      change SetsUpPage file ehdr j ((segmentStart file ehdr i + k) / 4096)
      rw [hpage]
      exact hlast

/-- Segments apart from each other are in memory once they are loaded. -/
theorem Elf.LoadableFile.load_holds (F : LoadableFile file ehdr) {mem : SparseMemory.Memory UInt8}
    (h : SparseMemory.load 0 (elfSegment file ehdr) (e_phnum file ehdr) = some mem)
    (hload : Loads file ehdr i) {k : Nat} (hk : segmentStart file ehdr i + k < segmentEnd file ehdr i) :
    mem (segmentStart file ehdr i + k) = some (segmentByte file ehdr i k) := by
  have hlt : k < p_memsz file (GetProgramHeader file ehdr) i := Nat.lt_of_add_lt_add_left hk
  have hmem := SparseMemory.load_holds h (fun i hi j hj hij k hk l hl heq => ?_) hload.1
    ((length_elfSegment hload).symm ▸ hlt)
  · rw [elfSegment_load hload.2] at hmem
    rw [hmem, List.getElem?_map, List.getElem?_range hlt, Option.map_some]
  · have hload : Loads file ehdr i := loads_of_elfSegment hi (.inl (List.ne_nil_of_length_pos (by omega)))
    have hload' : Loads file ehdr j := loads_of_elfSegment hj (.inl (List.ne_nil_of_length_pos (by omega)))
    rw [length_elfSegment hload] at hk
    rw [length_elfSegment hload'] at hl
    rw [elfSegment_load hload.2, elfSegment_load hload'.2] at heq
    dsimp only at heq
    have hle : segmentStart file ehdr j ≤ segmentStart file ehdr i + k := by
      rw [heq]
      exact Nat.le_add_right _ l
    have hapart := F.disjoint i j _ hload hload' hij (Nat.le_add_right _ k) (Nat.add_lt_add_left hk _) hle
    rw [heq] at hapart
    exact absurd (Nat.add_lt_add_left hl _) (Nat.not_lt.mpr hapart)

theorem copyLoadSegments_refines (H : m.WellFormed) (hend : m.memoryManager.rangeEnd ≤ 2 ^ 40)
    (hempty : ∀ i : Fin 512, 256 ≤ i.val → (m.mem m.cr3 i).present = false)
    (F : LoadableFile file ehdr) (hrun : m.copyLoadSegments task file ehdr = some r)
    (hok : r.1.error = .kSuccess) :
    Refines ⟨m, []⟩ r.2 (SparseMemory.load 0 (elfSegment file ehdr) (e_phnum file ehdr)) := by
  obtain ⟨hhalf, himage⟩ := applicationHalf_of_empty H hend hempty
  rw [Machine.copyLoadSegments, List.range_eq_range'] at hrun
  have hloaded : SparseMemory.load 0 (elfSegment file ehdr) 0 = some (Loading.mk m []).m.image :=
    congrArg some himage.symm
  have hrefines := Loading.copySegments_refines hhalf F hloaded (Nat.zero_add _) hrun hok
  rwa [Nat.zero_add] at hrefines

/-- Into an empty upper half, segments are loaded as they should be just when for each its last page was
set up, and none goes up to the last address. -/
theorem copyLoadSegments_loaded_iff (H : m.WellFormed) (hend : m.memoryManager.rangeEnd ≤ 2 ^ 40)
    (hempty : ∀ i : Fin 512, 256 ≤ i.val → (m.mem m.cr3 i).present = false)
    (F : LoadableFile file ehdr) (hrun : m.copyLoadSegments task file ehdr = some r)
    (hok : r.1.error = .kSuccess) :
    SegmentsLoaded file ehdr r.1.value r.2 ↔ CoversPages file ehdr := by
  have hrefines := copyLoadSegments_refines H hend hempty F hrun hok
  obtain ⟨-, hall, hattained⟩ := Loading.copySegments_lastAddr hrun hok
  constructor
  · intro L
    rcases hrefines with ⟨-, -, hload⟩ | ⟨hlt, -⟩
    · refine ⟨isSome_load_iff.mp (Option.isSome_iff_exists.mpr ⟨_, hload⟩), fun i hi => ?_⟩
      have hle := L.lastAddr.1 ⟨i, hi, rfl⟩
      have hupper := (F.upper i hi).2
      have hvalue : r.1.value < 2 ^ 64 := by
        rcases hattained with heq | ⟨j, -, -, heq⟩
        · rw [heq]
          decide
        · rw [heq]
          exact Nat.mod_lt _ (by decide)
      omega
    · rw [L.noFault] at hlt
      exact absurd hlt (Nat.lt_irrefl 0)
  · intro C
    obtain ⟨mem, hload⟩ := Option.isSome_iff_exists.mp (isSome_load_iff.mpr C.lastPage)
    rcases hrefines with ⟨hfaults, -, hload'⟩ | ⟨-, hnone⟩
    · obtain rfl := Option.some.inj (hload.symm.trans hload')
      refine ⟨hfaults, fun i hi k hk => ?_, ?_, fun x hx => ?_⟩
      · have hbyte := F.load_holds hload hi hk
        rw [Machine.image, if_pos (F.upperHalf hi (Nat.le_add_right _ _) hk)] at hbyte
        exact hbyte
      · intro e he
        obtain ⟨i, hi, heq⟩ := he
        have hle := hall i (List.mem_range.mpr hi.1) hi.2
        rw [Nat.mod_eq_of_lt (C.ends i hi)] at hle
        exact heq.trans_le hle
      · rcases hattained with heq | ⟨i, hi, htype, heq⟩
        · rw [heq]
          exact Nat.zero_le x
        · have hi : Loads file ehdr i := ⟨List.mem_range.mp hi, htype⟩
          rw [heq, Nat.mod_eq_of_lt (C.ends i hi)]
          exact hx ⟨i, hi, rfl⟩
    · rw [hload] at hnone
      cases hnone

/-! ## Without the handler -/

/-- The handler of page faults has nothing to bring to the upper half. -/
def PagingTask.RefusesUpperHalf (task : PagingTask) : Prop :=
  ∀ a, UpperHalf a → ¬ (task.dpagingBegin ≤ a ∧ a < task.dpagingEnd) ∧
    Machine.findFileMapping task.fileMaps a = none

theorem PagingTask.RefusesUpperHalf.handlePageFault (h : task.RefusesUpperHalf) (ha : UpperHalf a) :
    m.handlePageFault task 2 (ofValue a) = (.kIndexOutOfRange, m) := by
  obtain ⟨hrange, hmap⟩ := h a ha
  rw [Machine.handlePageFault, value_ofValue ha.2, if_neg hrange, hmap]
  rfl

namespace Loading

theorem store_of_refuses (h : task.RefusesUpperHalf) (ha : UpperHalf a)
    (hrun : s.store task a b = some s') : s'.faults = s.faults := by
  rw [store] at hrun
  cases hw : s.m.translate (ofValue a) with
  | none =>
    have hfault : s.m.supervisorStore (ofValue a) b = .error (.pageFault 2) := by
      rw [Machine.supervisorStore, if_pos ha.canonical, hw]
      rfl
    rw [hfault] at hrun
    dsimp only at hrun
    rw [h.handlePageFault ha] at hrun
    cases hrun
  | some t =>
    rw [Machine.supervisorStore, if_pos ha.canonical, hw] at hrun
    obtain rfl := Option.some.inj hrun
    rfl

theorem storeBytes_of_refuses (h : task.RefusesUpperHalf) (hupper : ∀ k < bytes.length, UpperHalf (a + k))
    (hrun : s.storeBytes task a bytes = some s') : s'.faults = s.faults := by
  induction bytes generalizing s a with
  | nil =>
    obtain rfl := Option.some.inj hrun
    rfl
  | cons b bytes ih =>
    obtain ⟨s₁, h₁, h₂⟩ := Option.bind_eq_some_iff.mp hrun
    refine (ih (fun k hk => ?_) h₂).trans (store_of_refuses h (hupper 0 (Nat.succ_pos _)) h₁)
    rw [Nat.add_right_comm]
    exact hupper (k + 1) (Nat.succ_lt_succ hk)

theorem copySegments_of_refuses (h : task.RefusesUpperHalf) (F : LoadableFile file ehdr)
    (his : ∀ i ∈ is, i < e_phnum file ehdr) (hrun : s.copySegments task file ehdr lastAddr is = some r) :
    r.2.faults = s.faults := by
  induction is generalizing s lastAddr with
  | nil =>
    obtain rfl := Option.some.inj hrun
    rfl
  | cons i is ih =>
    obtain ⟨hi, his⟩ := List.forall_mem_cons.mp his
    rcases copySegments_cases hrun with
      ⟨-, hrest⟩ | ⟨htype, err, m, -, ⟨-, rfl⟩ | ⟨-, s₂, hcopy, hrest⟩⟩
    · exact ih his hrest
    · rfl
    · obtain ⟨s₁, bytes, zeros, h₁, h₂, -, hbytes, hzeros⟩ := F.stores ⟨hi, htype⟩ hcopy
      have hcopied := storeBytes_of_refuses h hbytes h₁
      exact (ih his hrest).trans ((storeBytes_of_refuses h hzeros h₂).trans hcopied)

end Loading

/-- Without the handler a segment whose last page was not set up stops the kernel. -/
theorem copyLoadSegments_of_refuses (hrefuses : task.RefusesUpperHalf) (H : m.WellFormed)
    (hend : m.memoryManager.rangeEnd ≤ 2 ^ 40)
    (hempty : ∀ i : Fin 512, 256 ≤ i.val → (m.mem m.cr3 i).present = false)
    (F : LoadableFile file ehdr) (hrun : m.copyLoadSegments task file ehdr = some r)
    (hok : r.1.error = .kSuccess) (hi : Loads file ehdr i)
    (hpos : segmentStart file ehdr i < segmentEnd file ehdr i) :
    ∃ j ≤ i, Loads file ehdr j ∧ SetsUpPage file ehdr j ((segmentEnd file ehdr i - 1) / 4096) := by
  have hfaults : r.2.faults = [] :=
    Loading.copySegments_of_refuses hrefuses F (fun i => List.mem_range.mp) hrun
  rcases copyLoadSegments_refines H hend hempty F hrun hok with ⟨-, -, hload⟩ | ⟨hlt, -⟩
  · exact isSome_load_iff.mp (Option.isSome_iff_exists.mpr ⟨_, hload⟩) i hi hpos
  · rw [hfaults] at hlt
    exact absurd hlt (Nat.lt_irrefl 0)

/-! ## A segment within a page, and one across a border -/

theorem Elf.loadableFile_of_one (hnum : e_phnum file ehdr = 1)
    (hupper : applicationBase ≤ segmentStart file ehdr 0 ∧ segmentEnd file ehdr 0 ≤ 2 ^ 64)
    (hfilesz : p_filesz file (GetProgramHeader file ehdr) 0 ≤ p_memsz file (GetProgramHeader file ehdr) 0) :
    LoadableFile file ehdr := by
  have hzero (i : Nat) (hi : Loads file ehdr i) : i = 0 := Nat.lt_one_iff.mp (hnum ▸ hi.1)
  refine ⟨fun i hi => ?_, fun i hi => ?_, fun i j a hi hj hij => ?_⟩
  · rw [hzero i hi]
    exact hupper
  · rw [hzero i hi]
    exact hfilesz
  · exact absurd ((hzero i hi).trans (hzero j hj).symm) hij

/-- The last three bytes of a page. -/
def withinPage : FlatMemory.Memory := executable [loadHeader 0 0xffff800000000ffd 2 3]

theorem copyLoadSegments_loaded_iff_withinPage :
    ∃ r, emptyMachine.copyLoadSegments Instances.noTask withinPage 0x200000 = some r ∧
      SegmentsLoaded withinPage 0x200000 r.1.value r.2 := by
  have hok : (emptyMachine.copyLoadSegments Instances.noTask withinPage 0x200000).map
    (fun r => r.1.error) = some .kSuccess := by decide +kernel
  have hnum : e_phnum withinPage 0x200000 = 1 := by decide +kernel
  have hload : Loads withinPage 0x200000 0 := ⟨by decide +kernel, by decide +kernel⟩
  have F : LoadableFile withinPage 0x200000 :=
    loadableFile_of_one hnum ⟨by decide +kernel, by decide +kernel⟩ (by decide +kernel)
  have C : CoversPages withinPage 0x200000 := by
    refine ⟨fun i hi _ => ?_, fun i hi => ?_⟩ <;> obtain rfl : i = 0 := Nat.lt_one_iff.mp (hnum ▸ hi.1)
    · exact ⟨0, le_rfl, hload, by decide +kernel, by decide +kernel⟩
    · decide +kernel
  obtain ⟨r, hrun, hsuccess⟩ := Option.map_eq_some_iff.mp hok
  exact ⟨r, hrun, (copyLoadSegments_loaded_iff emptyMachine_wellFormed (by decide)
    (fun _ _ => PageMapEntry.present_zero) F hrun hsuccess).mpr C⟩

/-- The last byte of a page and the first one of the next. -/
def acrossPages : FlatMemory.Memory := executable [loadHeader 0 0xffff800000000fff 2 2]

/-- The terminal's task after an application that asked for one page behind its only one. -/
def afterDemandPages : PagingTask :=
  { Instances.noTask with dpagingBegin := 0xffff800000001000, dpagingEnd := 0xffff800000002000 }

/-- One page is set up for these two bytes; the handler of page faults brings the other one. -/
theorem not_copyLoadSegments_loaded : ¬ ∀ (task : PagingTask) (file : FlatMemory.Memory) (ehdr : Nat)
    (m : Machine) (r : WithError Nat × Loading), m.WellFormed → m.memoryManager.rangeEnd ≤ 2 ^ 40 →
      (∀ i : Fin 512, 256 ≤ i.val → (m.mem m.cr3 i).present = false) → LoadableFile file ehdr →
      m.copyLoadSegments task file ehdr = some r → r.1.error = .kSuccess →
        SegmentsLoaded file ehdr r.1.value r.2 := by
  intro h
  have hfault : (emptyMachine.copyLoadSegments afterDemandPages acrossPages 0x200000).map
    (fun r => (r.1.error, r.2.faults.length)) = some (.kSuccess, 1) := by decide +kernel
  have F : LoadableFile acrossPages 0x200000 :=
    loadableFile_of_one (by decide +kernel) ⟨by decide +kernel, by decide +kernel⟩ (by decide +kernel)
  obtain ⟨r, hrun, hr⟩ := Option.map_eq_some_iff.mp hfault
  obtain ⟨hok, hlength⟩ := Prod.mk.inj hr
  have L := h afterDemandPages acrossPages 0x200000 emptyMachine r emptyMachine_wellFormed (by decide)
    (fun _ _ => PageMapEntry.present_zero) F hrun hok
  rw [L.noFault] at hlength
  cases hlength

end MikanOS
