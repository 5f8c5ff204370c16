import MikanOS.Memory.History

/-! # The boot memory map

`memory_map.hpp` and `InitializeMemoryManager` of `memory_manager.cpp`: the loop over the memory
map of the firmware, which marks the frames that are not available. Only an available descriptor
moves `available_end`; every gap behind it is marked, and every other descriptor. -/

namespace MikanOS

/-- `MemoryType`, with the values of a descriptor's type that have no enumerator. -/
inductive MemoryType where
  | kEfiReservedMemoryType | kEfiLoaderCode | kEfiLoaderData | kEfiBootServicesCode
  | kEfiBootServicesData | kEfiRuntimeServicesCode | kEfiRuntimeServicesData
  | kEfiConventionalMemory | kEfiUnusableMemory | kEfiACPIReclaimMemory | kEfiACPIMemoryNVS
  | kEfiMemoryMappedIO | kEfiMemoryMappedIOPortSpace | kEfiPalCode | kEfiPersistentMemory
  | kEfiMaxMemoryType
  | unnamed (value : UInt32)
  deriving DecidableEq

/-- `static_cast<MemoryType>(type)`. -/
def MemoryType.ofType (type : UInt32) : MemoryType :=
  match type.toNat with
  | 0 => .kEfiReservedMemoryType
  | 1 => .kEfiLoaderCode
  | 2 => .kEfiLoaderData
  | 3 => .kEfiBootServicesCode
  | 4 => .kEfiBootServicesData
  | 5 => .kEfiRuntimeServicesCode
  | 6 => .kEfiRuntimeServicesData
  | 7 => .kEfiConventionalMemory
  | 8 => .kEfiUnusableMemory
  | 9 => .kEfiACPIReclaimMemory
  | 10 => .kEfiACPIMemoryNVS
  | 11 => MemoryType.kEfiMemoryMappedIO
  | 12 => .kEfiMemoryMappedIOPortSpace
  | 13 => .kEfiPalCode
  | 14 => .kEfiPersistentMemory
  | 15 => .kEfiMaxMemoryType
  | _ => .unnamed type

/-- `IsAvailable`. Its comparisons are the built-in ones of the enumeration; the `operator==` of the
header take an integer on one side. -/
def isAvailable (memoryType : MemoryType) : Bool :=
  memoryType == .kEfiBootServicesCode || memoryType == .kEfiBootServicesData ||
    memoryType == .kEfiConventionalMemory

def kUEFIPageSize : Nat := 4096

/-- `MemoryDescriptor`, as far as the kernel reads it. -/
structure MemoryDescriptor where
  type : UInt32
  physicalStart : Nat
  numberOfPages : Nat
  deriving DecidableEq

namespace MemoryDescriptor

variable (desc : MemoryDescriptor)

def available : Bool := isAvailable (.ofType desc.type)

/-- `number_of_pages * kUEFIPageSize`, in 64 bits. -/
def byteLength : Nat := desc.numberOfPages * kUEFIPageSize % 2 ^ 64

/-- `physical_end`, in 64 bits. -/
def physicalEnd : Nat := (desc.physicalStart + desc.byteLength) % 2 ^ 64

end MemoryDescriptor

namespace BitmapMemoryManager

/-- The loop's state in `InitializeMemoryManager`, with the arguments of every `MarkAllocated`. -/
structure Boot where
  memoryManager : BitmapMemoryManager := {}
  availableEnd : Nat := 0
  marked : List Block := []

namespace Boot

def markAllocated (s : Boot) (startFrame numFrames : Nat) : Boot :=
  { s with
    memoryManager := s.memoryManager.markAllocated startFrame numFrames
    marked := s.marked ++ [⟨startFrame, numFrames⟩] }

/-- The gap between the last available descriptor and the one that is read. -/
def markGap (s : Boot) (desc : MemoryDescriptor) : Boot :=
  if s.availableEnd < desc.physicalStart then
    s.markAllocated (s.availableEnd / kBytesPerFrame)
      ((desc.physicalStart - s.availableEnd) / kBytesPerFrame)
  else s

def step (s : Boot) (desc : MemoryDescriptor) : Boot :=
  let s := s.markGap desc
  if desc.available then { s with availableEnd := desc.physicalEnd }
  else
    s.markAllocated (desc.physicalStart / kBytesPerFrame) (desc.byteLength / kBytesPerFrame)

def loop (s : Boot) (memoryMap : List MemoryDescriptor) : Boot := memoryMap.foldl step s

@[simp] theorem loop_nil (s : Boot) : s.loop [] = s := rfl

@[simp] theorem loop_cons (s : Boot) (desc : MemoryDescriptor) (ds : List MemoryDescriptor) :
    s.loop (desc :: ds) = (s.step desc).loop ds := rfl

theorem loop_append (s : Boot) (ds ds' : List MemoryDescriptor) :
    s.loop (ds ++ ds') = (s.loop ds).loop ds' := List.foldl_append ..

@[simp] theorem availableEnd_markGap (s : Boot) (desc : MemoryDescriptor) :
    (s.markGap desc).availableEnd = s.availableEnd := by
  rw [markGap]
  split <;> rfl

end Boot

/-- The manager when `InitializeMemoryManager` has called `SetMemoryRange`. -/
def ofMemoryMap (memoryMap : List MemoryDescriptor) : BitmapMemoryManager :=
  let s := Boot.loop {} memoryMap
  s.memoryManager.setMemoryRange 1 (s.availableEnd / kBytesPerFrame)

def kHeapFrames : Nat := 64 * 512

/-- `program_break` and `program_break_end`. -/
structure ProgramBreak where
  programBreak : Nat
  programBreakEnd : Nat
  deriving DecidableEq

def initializeHeap (m : BitmapMemoryManager) : Except Error ProgramBreak × BitmapMemoryManager :=
  match m.allocate kHeapFrames with
  | (⟨heapStart, .kSuccess⟩, m) =>
    (.ok ⟨heapStart * kBytesPerFrame, heapStart * kBytesPerFrame + kHeapFrames * kBytesPerFrame⟩, m)
  | (⟨_, error⟩, m) => (.error error, m)

/-- `InitializeMemoryManager`; `none` stands for its `exit(1)`. -/
def initializeMemoryManager (memoryMap : List MemoryDescriptor) :
    Option (ProgramBreak × BitmapMemoryManager) :=
  match (ofMemoryMap memoryMap).initializeHeap with
  | (.ok programBreak, m) => some (programBreak, m)
  | (.error _, _) => none

/-! ## The bitmap of a sorted map -/

/-- A memory map as firmware hands it out, sorted, page by page, up to the last byte that the bitmap
covers: each descriptor ends where the next begins or below. -/
structure SortedMap (memoryMap : List MemoryDescriptor) : Prop where
  aligned : ∀ desc ∈ memoryMap, kBytesPerFrame ∣ desc.physicalStart
  sorted : memoryMap.Pairwise fun d e =>
    d.physicalStart + d.numberOfPages * kUEFIPageSize ≤ e.physicalStart
  bounded : ∀ desc ∈ memoryMap,
    desc.physicalStart + desc.numberOfPages * kUEFIPageSize ≤ kMaxPhysicalMemoryBytes

/-- The frame `f` lies inside the descriptor. -/
def Inside (f : Nat) (desc : MemoryDescriptor) : Prop :=
  desc.physicalStart ≤ f * kBytesPerFrame ∧
    f * kBytesPerFrame < desc.physicalStart + desc.numberOfPages * kUEFIPageSize

/-- The frame `f` lies inside an available descriptor of the map. -/
def InAvailable (memoryMap : List MemoryDescriptor) (f : Nat) : Prop :=
  ∃ desc ∈ memoryMap, desc.available = true ∧ Inside f desc

/-- The end of the last descriptor. -/
def mapEnd (memoryMap : List MemoryDescriptor) : Nat :=
  (memoryMap.getLast?.map fun d => d.physicalStart + d.numberOfPages * kUEFIPageSize).getD 0

/-- The loop's state behind the descriptors `pre`: every frame below their end is marked unless it
is inside an available one, and nothing else is. -/
structure Boot.Marks (pre : List MemoryDescriptor) (s : Boot) : Prop where
  bits : ∀ f, s.memoryManager.getBit f = true ↔
    f * kBytesPerFrame < mapEnd pre ∧ ¬ InAvailable pre f
  below : ∀ desc ∈ pre, desc.available = true →
    desc.physicalStart + desc.numberOfPages * kUEFIPageSize ≤ s.availableEnd
  le_end : s.availableEnd ≤ mapEnd pre
  aligned : kBytesPerFrame ∣ s.availableEnd
  aligned_end : kBytesPerFrame ∣ mapEnd pre

variable {pre : List MemoryDescriptor} {desc : MemoryDescriptor} {f : Nat}

theorem inAvailable_append :
    InAvailable (pre ++ [desc]) f ↔ InAvailable pre f ∨ (desc.available = true ∧ Inside f desc) := by
  simp [InAvailable, or_and_right, exists_or]

@[simp] theorem mapEnd_append :
    mapEnd (pre ++ [desc]) = desc.physicalStart + desc.numberOfPages * kUEFIPageSize := by
  simp [mapEnd]

/-- The frames of a run between two page borders. -/
theorem mem_frames_iff {lo hi : Nat} (hlo : kBytesPerFrame ∣ lo) (hhi : kBytesPerFrame ∣ hi)
    (hle : lo ≤ hi) :
    (lo / kBytesPerFrame ≤ f ∧ f < lo / kBytesPerFrame + (hi - lo) / kBytesPerFrame) ↔
      lo ≤ f * kBytesPerFrame ∧ f * kBytesPerFrame < hi := by
  obtain ⟨a, rfl⟩ := hlo
  obtain ⟨b, rfl⟩ := hhi
  simp only [kBytesPerFrame] at *
  omega

namespace Boot

variable {s : Boot}

theorem Marks.nil : Marks [] {} where
  bits f := by simp [mapEnd]
  below := by simp
  le_end := Nat.zero_le _
  aligned := Nat.dvd_zero _
  aligned_end := Nat.dvd_zero _

/-- No frame from `available_end` on lies inside an available descriptor. -/
theorem Marks.notMem (H : Marks pre s) (hf : s.availableEnd ≤ f * kBytesPerFrame) :
    ¬ InAvailable pre f := by
  rintro ⟨desc, hdesc, havail, hin⟩
  have := H.below desc hdesc havail
  have := hin.2
  omega

/-- After the gap everything below the descriptor is marked unless it is available. -/
theorem Marks.markGap_bits (H : Marks pre s) (haligned : kBytesPerFrame ∣ desc.physicalStart)
    (hsorted : mapEnd pre ≤ desc.physicalStart) (f : Nat) :
    (s.markGap desc).memoryManager.getBit f = true ↔
      f * kBytesPerFrame < desc.physicalStart ∧ ¬ InAvailable pre f := by
  have hend := H.le_end
  rw [markGap]
  split
  · rename_i hlt
    rw [markAllocated, getBit_markAllocated, Bool.or_eq_true, decide_eq_true_eq,
      mem_frames_iff H.aligned haligned hlt.le, H.bits]
    constructor
    · rintro (⟨hlo, hhi⟩ | ⟨hlt', hnot⟩)
      · exact ⟨hhi, H.notMem hlo⟩
      · exact ⟨by omega, hnot⟩
    · rintro ⟨hhi, hnot⟩
      rcases Nat.lt_or_ge (f * kBytesPerFrame) s.availableEnd with hlo | hlo
      · exact .inr ⟨by omega, hnot⟩
      · exact .inl ⟨hlo, hhi⟩
  · rw [H.bits]
    refine and_congr_left fun _ => ⟨fun h => ?_, fun h => ?_⟩ <;> omega

/-- One descriptor. -/
theorem Marks.step (H : Marks pre s) (haligned : kBytesPerFrame ∣ desc.physicalStart)
    (hsorted : mapEnd pre ≤ desc.physicalStart)
    (hbounded : desc.physicalStart + desc.numberOfPages * kUEFIPageSize ≤ kMaxPhysicalMemoryBytes) :
    Marks (pre ++ [desc]) (s.step desc) := by
  have hmax : kMaxPhysicalMemoryBytes < 2 ^ 64 := by decide
  have hlen : desc.byteLength = desc.numberOfPages * kUEFIPageSize :=
    Nat.mod_eq_of_lt (by omega)
  have hphysical : desc.physicalEnd = desc.physicalStart + desc.numberOfPages * kUEFIPageSize := by
    rw [MemoryDescriptor.physicalEnd, hlen, Nat.mod_eq_of_lt (by omega)]
  have hend : kBytesPerFrame ∣ desc.physicalStart + desc.numberOfPages * kUEFIPageSize :=
    Nat.dvd_add haligned (Nat.dvd_mul_left ..)
  have hpre : ∀ f, InAvailable pre f → f * kBytesPerFrame < desc.physicalStart := by
    rintro f ⟨d, hd, havail, hin⟩
    have := H.below d hd havail
    have := H.le_end
    have := hin.2
    omega
  rw [Boot.step]
  split
  · rename_i havail
    refine ⟨fun f => ?_, fun d hd hdavail => ?_, ?_, ?_, ?_⟩
    · rw [H.markGap_bits haligned hsorted, mapEnd_append, inAvailable_append, Inside]
      constructor
      · rintro ⟨hlt, hnot⟩
        exact ⟨by omega, fun h => h.elim hnot fun h => by omega⟩
      · rintro ⟨hlt, hnot⟩
        refine ⟨?_, fun h => hnot (.inl h)⟩
        by_contra hge
        exact hnot (.inr ⟨havail, by omega, hlt⟩)
    · dsimp only
      rw [hphysical]
      rcases List.mem_append.mp hd with hd | hd
      · have := H.below d hd hdavail
        have := H.le_end
        omega
      · rw [List.mem_singleton.mp hd]
    · dsimp only
      rw [hphysical, mapEnd_append]
    · dsimp only
      rwa [hphysical]
    · rwa [mapEnd_append]
  · rename_i havail
    refine ⟨fun f => ?_, fun d hd hdavail => ?_, ?_, ?_, ?_⟩
    · have hframes := mem_frames_iff (f := f) haligned hend (Nat.le_add_right _ _)
      rw [Nat.add_sub_cancel_left] at hframes
      rw [markAllocated, getBit_markAllocated, Bool.or_eq_true, decide_eq_true_eq, hlen, hframes,
        H.markGap_bits haligned hsorted, mapEnd_append, inAvailable_append]
      constructor
      · rintro (⟨hlo, hhi⟩ | ⟨hlt, hnot⟩)
        · exact ⟨hhi, fun h => h.elim (fun h => by have := hpre f h; omega) fun h => havail h.1⟩
        · exact ⟨by omega, fun h => h.elim hnot fun h => havail h.1⟩
      · rintro ⟨hhi, hnot⟩
        rcases Nat.lt_or_ge (f * kBytesPerFrame) desc.physicalStart with hlo | hlo
        · exact .inr ⟨hlo, fun h => hnot (.inl h)⟩
        · exact .inl ⟨hlo, hhi⟩
    · rw [markAllocated, availableEnd_markGap]
      rcases List.mem_append.mp hd with hd | hd
      · exact H.below d hd hdavail
      · rw [List.mem_singleton.mp hd] at hdavail
        exact absurd hdavail havail
    · rw [markAllocated, availableEnd_markGap, mapEnd_append]
      have := H.le_end
      omega
    · rw [markAllocated, availableEnd_markGap]
      exact H.aligned
    · rwa [mapEnd_append]

/-- The whole loop, by induction on the descriptors that are left. -/
theorem Marks.loop {ds : List MemoryDescriptor} (H : Marks pre s) (hmap : SortedMap (pre ++ ds)) :
    Marks (pre ++ ds) (s.loop ds) := by
  induction ds generalizing pre s with
  | nil => simpa using H
  | cons desc ds ih =>
    have hdesc : desc ∈ pre ++ desc :: ds := by simp
    have hsorted : mapEnd pre ≤ desc.physicalStart := by
      rcases List.eq_nil_or_concat pre with rfl | ⟨pre', last, rfl⟩
      · exact Nat.zero_le _
      · rw [List.concat_eq_append, mapEnd_append]
        exact (List.pairwise_append.mp hmap.sorted).2.2 last (by simp) desc (by simp)
    have hstep := H.step (hmap.aligned desc hdesc) hsorted (hmap.bounded desc hdesc)
    rw [List.append_cons] at hmap ⊢
    exact ih hstep hmap

end Boot

theorem le_mapEnd {ds : List MemoryDescriptor} (hmap : SortedMap ds) (hdesc : desc ∈ ds) :
    desc.physicalStart + desc.numberOfPages * kUEFIPageSize ≤ mapEnd ds := by
  rcases List.eq_nil_or_concat ds with rfl | ⟨pre, last, rfl⟩
  · cases hdesc
  · rw [List.concat_eq_append] at hmap hdesc ⊢
    rw [mapEnd_append]
    rcases List.mem_append.mp hdesc with hdesc | hdesc
    · have := (List.pairwise_append.mp hmap.sorted).2.2 desc hdesc last (by simp)
      omega
    · rw [List.mem_singleton.mp hdesc]

/-- A frame lies inside one descriptor at most. -/
theorem SortedMap.eq_of_inside {ds : List MemoryDescriptor} (hmap : SortedMap ds)
    {d e : MemoryDescriptor} (hd : d ∈ ds) (he : e ∈ ds) (hfd : Inside f d) (hfe : Inside f e) :
    d = e := by
  have hpair : ds.Pairwise fun d e => Inside f d → Inside f e → d = e := by
    refine hmap.sorted.imp fun {d e} hle hfd hfe => ?_
    have := hfd.2
    have := hfe.1
    omega
  exact hpair.forall_of_forall_of_flip (fun _ _ _ _ => rfl)
    (hpair.imp fun h hfe hfd => (h hfd hfe).symm) hd he hfd hfe

/-- When `InitializeMemoryManager` calls `SetMemoryRange`, the free frames of the range are those of
the available descriptors; the other descriptors and the gaps between descriptors are marked. -/
theorem ofMemoryMap_getBit (memoryMap : List MemoryDescriptor) (hmap : SortedMap memoryMap) :
    (ofMemoryMap memoryMap).rangeBegin = 1 ∧
      (∀ f, 1 ≤ f → f < (ofMemoryMap memoryMap).rangeEnd →
        ((ofMemoryMap memoryMap).getBit f = false ↔ InAvailable memoryMap f)) ∧
      (∀ desc ∈ memoryMap, desc.available = false → ∀ f, Inside f desc →
        (ofMemoryMap memoryMap).getBit f = true) ∧
      ∀ f, (∀ desc ∈ memoryMap, ¬ Inside f desc) →
        (∃ desc ∈ memoryMap, f * kBytesPerFrame < desc.physicalStart) →
        (ofMemoryMap memoryMap).getBit f = true := by
  have H : Boot.Marks ([] ++ memoryMap) (Boot.loop {} memoryMap) :=
    Boot.Marks.nil.loop (by simpa using hmap)
  rw [List.nil_append] at H
  rw [ofMemoryMap]
  simp only [setMemoryRange_rangeBegin, setMemoryRange_rangeEnd, getBit_setMemoryRange]
  refine ⟨trivial, fun f _ hf => ?_, fun desc hdesc hother f hin => ?_, fun f hnone hbelow => ?_⟩
  · have hlt : f * kBytesPerFrame < mapEnd memoryMap :=
      lt_of_lt_of_le ((Nat.lt_div_iff_mul_lt_of_dvd (by decide) H.aligned).mp hf) H.le_end
    rw [Bool.eq_false_iff, Ne, H.bits]
    constructor
    · intro hnot
      by_contra hno
      exact hnot ⟨hlt, hno⟩
    · rintro hin ⟨-, hno⟩
      exact hno hin
  · refine (H.bits f).mpr ⟨hin.2.trans_le (le_mapEnd hmap hdesc), ?_⟩
    rintro ⟨d, hd, havail, hfd⟩
    rw [hmap.eq_of_inside hd hdesc hfd hin, hother] at havail
    cases havail
  · obtain ⟨desc, hdesc, hlt⟩ := hbelow
    have := le_mapEnd hmap hdesc
    refine (H.bits f).mpr ⟨by omega, ?_⟩
    rintro ⟨d, hd, -, hfd⟩
    exact hnone d hd hfd

/-- Conventional memory, a reserved region, a gap of two pages and boot services data. -/
def smallMap : List MemoryDescriptor :=
  [⟨7, 0, 16⟩, ⟨0, 0x10000, 4⟩, ⟨4, 0x16000, 8⟩, ⟨11, 0xfec00000, 1⟩]

theorem smallMap_sorted : SortedMap smallMap where
  aligned := by decide
  sorted := by decide
  bounded := by decide

theorem ofMemoryMap_getBit_smallMap :
    (ofMemoryMap smallMap).rangeBegin = 1 ∧
      (∀ f, 1 ≤ f → f < (ofMemoryMap smallMap).rangeEnd →
        ((ofMemoryMap smallMap).getBit f = false ↔ InAvailable smallMap f)) ∧
      (∀ desc ∈ smallMap, desc.available = false → ∀ f, Inside f desc →
        (ofMemoryMap smallMap).getBit f = true) ∧
      ∀ f, (∀ desc ∈ smallMap, ¬ Inside f desc) →
        (∃ desc ∈ smallMap, f * kBytesPerFrame < desc.physicalStart) →
        (ofMemoryMap smallMap).getBit f = true :=
  ofMemoryMap_getBit smallMap smallMap_sorted

end BitmapMemoryManager

end MikanOS
