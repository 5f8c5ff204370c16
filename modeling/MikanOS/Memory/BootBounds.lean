import MikanOS.Memory.BootMap

/-! # The bitmap's bounds

Which bits of `alloc_map_` the boot code and `Allocate` touch, and the memory maps for which all of
them belong to the array. `MarkAllocated` takes whatever the map says; `Allocate` is bounded by the
end of the range only, and that is the end of the last available descriptor. -/

namespace MikanOS.BitmapMemoryManager

variable (m : BitmapMemoryManager)

/-- The frames whose bits `MarkAllocated` writes. -/
def markAllocatedFrames (startFrame numFrames : Nat) : List Nat := List.range' startFrame numFrames

/-- The frames whose bits the inner loop of `Allocate` reads. -/
def scanFrames (startFrameID i : Nat) : (remaining : Nat) → List Nat
  | 0 => []
  | remaining + 1 =>
    if m.rangeEnd ≤ startFrameID + i then []
    else
      (startFrameID + i) ::
        if m.getBit (startFrameID + i) then [] else scanFrames startFrameID (i + 1) remaining

/-- The frames whose bits the outer loop of `Allocate` touches from a candidate on. -/
def allocateFromFrames (numFrames startFrameID : Nat) : List Nat :=
  m.scanFrames startFrameID 0 numFrames ++
    match h : m.scan startFrameID 0 numFrames with
    | .pastEnd => []
    | .found => markAllocatedFrames startFrameID numFrames
    | .used i => allocateFromFrames numFrames (startFrameID + (i + 1))
termination_by m.rangeEnd - startFrameID
decreasing_by have := scan_used_lt h; omega

def allocateFrames (numFrames : Nat) : List Nat := m.allocateFromFrames numFrames m.rangeBegin

/-- A call of the manager after the boot. -/
inductive Call where
  | allocate (numFrames : Nat)
  | free (startFrame numFrames : Nat)

def call : Call → BitmapMemoryManager
  | .allocate n => (m.allocate n).2
  | .free start n => (m.free start n).2

def after (calls : List Call) : BitmapMemoryManager := calls.foldl call m

variable {m} {start n i remaining f : Nat}

theorem mem_markAllocatedFrames : f ∈ markAllocatedFrames start n ↔ start ≤ f ∧ f < start + n :=
  List.mem_range'_1

theorem lt_of_mem_scanFrames (h : f ∈ m.scanFrames start i remaining) : f < m.rangeEnd := by
  induction remaining generalizing i with
  | zero => cases h
  | succ remaining ih =>
    rw [scanFrames] at h
    split at h
    · cases h
    · rcases List.mem_cons.mp h with rfl | h
      · omega
      · split at h
        · cases h
        · exact ih h

/-- The inner loop has read every frame of the range up to where it stops. -/
theorem mem_scanFrames (hlo : start + i ≤ f) (hhi : f < m.rangeEnd) :
    (m.scan start i remaining = .pastEnd → f ∈ m.scanFrames start i remaining) ∧
    ∀ j, m.scan start i remaining = .used j → f ≤ start + j →
      f ∈ m.scanFrames start i remaining := by
  induction remaining generalizing i with
  | zero =>
    rw [scan]
    exact ⟨fun h => by (cases h), fun j h => by cases h⟩
  | succ remaining ih =>
    rw [scan, scanFrames]
    split
    · omega
    rcases Nat.eq_or_lt_of_le hlo with rfl | hlt
    · exact ⟨fun _ => List.mem_cons_self, fun _ _ _ => List.mem_cons_self⟩
    split
    · refine ⟨fun h => by (cases h), fun j h hle => ?_⟩
      cases h
      omega
    · obtain ⟨hend, hused⟩ := ih (i := i + 1) (by omega)
      exact ⟨fun h => List.mem_cons_of_mem _ (hend h),
        fun j h hle => List.mem_cons_of_mem _ (hused j h hle)⟩

theorem allocateFromFrames_pastEnd (h : m.scan start 0 n = .pastEnd) :
    m.allocateFromFrames n start = m.scanFrames start 0 n := by
  rw [allocateFromFrames]
  split <;> simp_all

theorem allocateFromFrames_found (h : m.scan start 0 n = .found) :
    m.allocateFromFrames n start = m.scanFrames start 0 n ++ markAllocatedFrames start n := by
  rw [allocateFromFrames]
  split <;> simp_all

theorem allocateFromFrames_used (h : m.scan start 0 n = .used i) :
    m.allocateFromFrames n start =
      m.scanFrames start 0 n ++ m.allocateFromFrames n (start + (i + 1)) := by
  rw [allocateFromFrames]
  split <;> simp_all

/-- `Allocate` stays below the end of the range. The induction follows the candidates. -/
theorem lt_of_mem_allocateFromFrames (h : f ∈ m.allocateFromFrames n start) :
    f < m.rangeEnd := by
  induction start using allocateFrom.induct m n with
  | case1 start hscan =>
    rw [allocateFromFrames_pastEnd hscan] at h
    exact lt_of_mem_scanFrames h
  | case2 start hscan =>
    rw [allocateFromFrames_found hscan] at h
    rcases List.mem_append.mp h with h | h
    · exact lt_of_mem_scanFrames h
    · obtain ⟨hlo, hhi⟩ := mem_markAllocatedFrames.mp h
      have hfree := (scan_zero_spec m start n).1 hscan (f - start) (by omega)
      rw [Nat.add_sub_cancel' hlo] at hfree
      exact hfree.1
  | case3 start i hscan ih =>
    rw [allocateFromFrames_used hscan] at h
    rcases List.mem_append.mp h with h | h
    · exact lt_of_mem_scanFrames h
    · exact ih h

/-- An `Allocate` that fails has looked at every frame of the range. -/
theorem mem_allocateFromFrames (hfail : (m.allocateFrom n start).1.error ≠ .kSuccess)
    (hlo : start ≤ f) (hhi : f < m.rangeEnd) : f ∈ m.allocateFromFrames n start := by
  induction start using allocateFrom.induct m n with
  | case1 start hscan =>
    rw [allocateFromFrames_pastEnd hscan]
    exact (mem_scanFrames hlo hhi).1 hscan
  | case2 start hscan =>
    rw [allocateFrom] at hfail
    split at hfail <;> simp_all
  | case3 start i hscan ih =>
    have hnext : m.allocateFrom n start = m.allocateFrom n (start + (i + 1)) := by
      rw [allocateFrom]
      split <;> simp_all
    rw [allocateFromFrames_used hscan, List.mem_append]
    rcases Nat.lt_or_ge (start + i) f with hlt | hle
    · rw [hnext] at hfail
      exact .inr (ih hfail hlt)
    · exact .inl ((mem_scanFrames hlo hhi).2 i hscan hle)

/-- A request for more frames than the range has fails. -/
theorem allocate_error_of_rangeEnd_lt (hn : m.rangeEnd < n) :
    (m.allocate n).1.error ≠ .kSuccess := by
  rcases allocate_spec m (Nat.one_le_of_lt hn) with ⟨s, hleast, -⟩ | ⟨-, hfail⟩
  · have := hleast.1.2.1
    omega
  · rw [hfail]
    exact fun h => by cases h

@[simp] theorem allocate_rangeEnd (m : BitmapMemoryManager) (n : Nat) :
    (m.allocate n).2.rangeEnd = m.rangeEnd := by
  rcases Nat.eq_zero_or_pos n with rfl | hn
  · rw [allocate_zero]
  rcases allocate_spec m hn with ⟨s, -, hmark⟩ | ⟨-, hfail⟩
  · rw [hmark, markAllocated_rangeEnd]
  · rw [hfail]

@[simp] theorem allocate_rangeBegin (m : BitmapMemoryManager) (n : Nat) :
    (m.allocate n).2.rangeBegin = m.rangeBegin := by
  rcases Nat.eq_zero_or_pos n with rfl | hn
  · rw [allocate_zero]
  rcases allocate_spec m hn with ⟨s, -, hmark⟩ | ⟨-, hfail⟩
  · rw [hmark, markAllocated_rangeBegin]
  · rw [hfail]

theorem after_rangeEnd (m : BitmapMemoryManager) (calls : List Call) :
    (m.after calls).rangeEnd = m.rangeEnd := by
  induction calls generalizing m with
  | nil => rfl
  | cons c calls ih =>
    rw [after, List.foldl_cons, ← after, ih]
    cases c with
    | allocate n => exact allocate_rangeEnd m n
    | free start n => exact free_rangeEnd m start n

/-! ## The calls of the boot code -/

/-- The end of the last available descriptor, 0 if there is none. -/
def lastAvailableEnd (memoryMap : List MemoryDescriptor) : Nat :=
  (((memoryMap.filter (·.available)).getLast?).map (·.physicalEnd)).getD 0

/-- The descriptors stay within the memory that the bitmap covers as far as the code looks at
them: the gap in front of a descriptor ends there, a descriptor that is not available does, and so
does the last available one. -/
structure Covered (memoryMap : List MemoryDescriptor) : Prop where
  gap : ∀ pre desc post, memoryMap = pre ++ desc :: post →
    lastAvailableEnd pre < desc.physicalStart → desc.physicalStart ≤ kMaxPhysicalMemoryBytes
  other : ∀ desc ∈ memoryMap, desc.available = false → desc.byteLength ≠ 0 →
    desc.physicalStart + desc.byteLength ≤ kMaxPhysicalMemoryBytes
  available : lastAvailableEnd memoryMap ≤ kMaxPhysicalMemoryBytes

/-- Every bit that `InitializeMemoryManager` marks, that its `Allocate` for the heap touches and that
an `Allocate` after any later calls touches belongs to the array. -/
structure BitsInBounds (memoryMap : List MemoryDescriptor) : Prop where
  marked : ∀ b ∈ (Boot.loop {} memoryMap).marked, ∀ f ∈ markAllocatedFrames b.start b.len,
    f < kFrameCount
  heap : ∀ f ∈ (ofMemoryMap memoryMap).allocateFrames kHeapFrames, f < kFrameCount
  later : ∀ programBreak m, initializeMemoryManager memoryMap = some (programBreak, m) →
    ∀ calls n, ∀ f ∈ (m.after calls).allocateFrames n, f < kFrameCount

namespace Boot

variable {s : Boot} {desc : MemoryDescriptor} {pre ds : List MemoryDescriptor}

theorem lastAvailableEnd_append :
    lastAvailableEnd (pre ++ [desc]) =
      if desc.available then desc.physicalEnd else lastAvailableEnd pre := by
  rw [lastAvailableEnd, List.filter_append, List.filter_singleton]
  cases desc.available
  · simp [lastAvailableEnd]
  · simp

theorem step_availableEnd (h : s.availableEnd = lastAvailableEnd pre) :
    (s.step desc).availableEnd = lastAvailableEnd (pre ++ [desc]) := by
  rw [lastAvailableEnd_append, step]
  split
  · rfl
  · rw [markAllocated, availableEnd_markGap, h]

theorem loop_availableEnd (h : s.availableEnd = lastAvailableEnd pre) :
    (s.loop ds).availableEnd = lastAvailableEnd (pre ++ ds) := by
  induction ds generalizing pre s with
  | nil => simpa using h
  | cons desc ds ih =>
    rw [loop_cons, List.append_cons]
    exact ih (step_availableEnd h)

/-- The calls of `MarkAllocated` for one descriptor. -/
def marksOf (availableEnd : Nat) (desc : MemoryDescriptor) : List Block :=
  (if availableEnd < desc.physicalStart then
    [⟨availableEnd / kBytesPerFrame, (desc.physicalStart - availableEnd) / kBytesPerFrame⟩]
  else []) ++
    if desc.available then []
    else [⟨desc.physicalStart / kBytesPerFrame, desc.byteLength / kBytesPerFrame⟩]

theorem step_marked (s : Boot) (desc : MemoryDescriptor) :
    (s.step desc).marked = s.marked ++ marksOf s.availableEnd desc := by
  rw [step, marksOf, markGap]
  split <;> split <;> simp [markAllocated]

/-- The calls of the loop are those of its descriptors, each with the available end before it. -/
theorem mem_loop_marked {b : Block} (h : s.availableEnd = lastAvailableEnd pre) :
    b ∈ (s.loop ds).marked ↔ b ∈ s.marked ∨ ∃ before desc after, ds = before ++ desc :: after ∧
      b ∈ marksOf (lastAvailableEnd (pre ++ before)) desc := by
  induction ds generalizing pre s with
  | nil => simp
  | cons desc ds ih =>
    rw [loop_cons, ih (step_availableEnd h), step_marked, List.mem_append, or_assoc, h]
    refine or_congr_right ⟨?_, ?_⟩
    · rintro (hb | ⟨before, d, after, rfl, hb⟩)
      · exact ⟨[], desc, ds, rfl, by simpa using hb⟩
      · exact ⟨desc :: before, d, after, rfl, by simpa using hb⟩
    · rintro ⟨before, d, after, hds, hb⟩
      cases before with
      | nil =>
        obtain ⟨rfl, rfl⟩ := List.cons.inj hds
        exact .inl (by simpa using hb)
      | cons e before =>
        obtain ⟨rfl, rfl⟩ := List.cons.inj hds
        exact .inr ⟨before, d, after, rfl, by simpa using hb⟩

end Boot

/-- A run of frames belongs to the array if it is empty or ends there. -/
theorem frames_lt_iff {start n count : Nat} :
    (∀ f ∈ markAllocatedFrames start n, f < count) ↔ (n ≠ 0 → start + n ≤ count) := by
  constructor
  · intro h hn
    have := h (start + (n - 1)) (mem_markAllocatedFrames.mpr ⟨by omega, by omega⟩)
    omega
  · intro h f hf
    obtain ⟨hlo, hhi⟩ := mem_markAllocatedFrames.mp hf
    have := h (by omega)
    omega

/-- The calls for one descriptor, whose start and the available end before it are page borders. -/
theorem marksOf_lt_iff {a : Nat} {desc : MemoryDescriptor} (ha : kBytesPerFrame ∣ a)
    (hdesc : kBytesPerFrame ∣ desc.physicalStart) :
    (∀ b ∈ Boot.marksOf a desc, ∀ f ∈ markAllocatedFrames b.start b.len, f < kFrameCount) ↔
      (a < desc.physicalStart → desc.physicalStart ≤ kMaxPhysicalMemoryBytes) ∧
        (desc.available = false → desc.byteLength ≠ 0 →
          desc.physicalStart + desc.byteLength ≤ kMaxPhysicalMemoryBytes) := by
  have hcount : kMaxPhysicalMemoryBytes = kFrameCount * kBytesPerFrame := by decide
  have hlen : kBytesPerFrame ∣ desc.byteLength := by
    rw [MemoryDescriptor.byteLength]
    simp only [kBytesPerFrame, kUEFIPageSize]
    omega
  have hgap : (∀ f ∈ markAllocatedFrames (a / kBytesPerFrame)
      ((desc.physicalStart - a) / kBytesPerFrame), f < kFrameCount) ↔
      (a < desc.physicalStart → desc.physicalStart ≤ kMaxPhysicalMemoryBytes) := by
    rw [frames_lt_iff, hcount]
    simp only [kBytesPerFrame] at *
    omega
  have hother : (∀ f ∈ markAllocatedFrames (desc.physicalStart / kBytesPerFrame)
      (desc.byteLength / kBytesPerFrame), f < kFrameCount) ↔
      (desc.byteLength ≠ 0 →
        desc.physicalStart + desc.byteLength ≤ kMaxPhysicalMemoryBytes) := by
    rw [frames_lt_iff, hcount]
    simp only [kBytesPerFrame] at *
    omega
  rw [← hgap, ← hother, Boot.marksOf]
  simp only [List.mem_append, or_imp, forall_and]
  refine and_congr ?_ ?_
  · split
    · simp
    · rename_i hle
      rw [Nat.sub_eq_zero_of_le (Nat.le_of_not_lt hle)]
      simp [markAllocatedFrames]
  · split <;> simp_all

theorem lastAvailableEnd_dvd {ds : List MemoryDescriptor}
    (haligned : ∀ desc ∈ ds, kBytesPerFrame ∣ desc.physicalStart) :
    kBytesPerFrame ∣ lastAvailableEnd ds := by
  rw [lastAvailableEnd]
  cases hlast : (ds.filter (·.available)).getLast? with
  | none => exact Nat.dvd_zero _
  | some desc =>
    have hdesc := haligned desc (List.mem_filter.mp (List.mem_of_getLast? hlast)).1
    rw [Option.map_some, Option.getD_some, MemoryDescriptor.physicalEnd,
      MemoryDescriptor.byteLength]
    simp only [kBytesPerFrame, kUEFIPageSize] at *
    omega

theorem ofMemoryMap_rangeEnd (ds : List MemoryDescriptor) :
    (ofMemoryMap ds).rangeEnd = lastAvailableEnd ds / kBytesPerFrame := by
  have hend : (Boot.loop {} ds).availableEnd = lastAvailableEnd ([] ++ ds) :=
    Boot.loop_availableEnd rfl
  rw [ofMemoryMap, setMemoryRange_rangeEnd, hend, List.nil_append]

/-- The marked frames belong to the array if and only if the gaps and the other descriptors do. -/
theorem marked_lt_iff {ds : List MemoryDescriptor}
    (haligned : ∀ desc ∈ ds, kBytesPerFrame ∣ desc.physicalStart) :
    (∀ b ∈ (Boot.loop {} ds).marked, ∀ f ∈ markAllocatedFrames b.start b.len, f < kFrameCount) ↔
      (∀ pre desc post, ds = pre ++ desc :: post → lastAvailableEnd pre < desc.physicalStart →
        desc.physicalStart ≤ kMaxPhysicalMemoryBytes) ∧
      ∀ desc ∈ ds, desc.available = false → desc.byteLength ≠ 0 →
        desc.physicalStart + desc.byteLength ≤ kMaxPhysicalMemoryBytes := by
  have hmem : ∀ b, b ∈ (Boot.loop {} ds).marked ↔ ∃ pre desc post, ds = pre ++ desc :: post ∧
      b ∈ Boot.marksOf (lastAvailableEnd pre) desc := by
    intro b
    have hnil : ({} : Boot).availableEnd = lastAvailableEnd [] := rfl
    rw [Boot.mem_loop_marked hnil]
    simp
  have hmarks : ∀ pre desc post, ds = pre ++ desc :: post →
      ((∀ b ∈ Boot.marksOf (lastAvailableEnd pre) desc,
        ∀ f ∈ markAllocatedFrames b.start b.len, f < kFrameCount) ↔ _) :=
    fun pre desc post hds => marksOf_lt_iff
      (lastAvailableEnd_dvd fun d hd => haligned d (by simp [hds, hd]))
      (haligned desc (by simp [hds]))
  constructor
  · intro h
    have hall : ∀ pre desc post, ds = pre ++ desc :: post → _ := fun pre desc post hds =>
      (hmarks pre desc post hds).mp fun b hb => h b ((hmem b).mpr ⟨pre, desc, post, hds, hb⟩)
    refine ⟨fun pre desc post hds => (hall pre desc post hds).1, fun desc hdesc => ?_⟩
    obtain ⟨pre, post, hds⟩ := List.append_of_mem hdesc
    exact (hall pre desc post hds).2
  · rintro ⟨hgap, hother⟩ b hb
    obtain ⟨pre, desc, post, hds, hb⟩ := (hmem b).mp hb
    exact (hmarks pre desc post hds).mpr
      ⟨hgap pre desc post hds, hother desc (by simp [hds])⟩ b hb

theorem initializeMemoryManager_eq_some {ds : List MemoryDescriptor} {programBreak : ProgramBreak}
    (h : initializeMemoryManager ds = some (programBreak, m)) :
    m = ((ofMemoryMap ds).allocate kHeapFrames).2 := by
  rw [initializeMemoryManager, initializeHeap] at h
  split at h
  · rename_i hheap
    split at hheap <;> simp_all
  · cases h

theorem exists_initializeMemoryManager {ds : List MemoryDescriptor}
    (h : ((ofMemoryMap ds).allocate kHeapFrames).1.error = .kSuccess) :
    ∃ programBreak, initializeMemoryManager ds =
      some (programBreak, ((ofMemoryMap ds).allocate kHeapFrames).2) := by
  rw [initializeMemoryManager, initializeHeap]
  rcases hall : (ofMemoryMap ds).allocate kHeapFrames with ⟨⟨heapStart, error⟩, m⟩
  rw [hall] at h
  obtain rfl : error = .kSuccess := h
  exact ⟨_, rfl⟩

/-- Every `Allocate` stays in the array if and only if the range ends in it: a request that is too
large looks at the whole range. -/
theorem allocate_lt_iff (ds : List MemoryDescriptor) :
    ((∀ f ∈ (ofMemoryMap ds).allocateFrames kHeapFrames, f < kFrameCount) ∧
      ∀ programBreak m, initializeMemoryManager ds = some (programBreak, m) →
        ∀ calls n, ∀ f ∈ (m.after calls).allocateFrames n, f < kFrameCount) ↔
      (ofMemoryMap ds).rangeEnd ≤ kFrameCount := by
  constructor
  · rintro ⟨hheap, hlater⟩
    by_contra hend
    have hmem : ∀ m : BitmapMemoryManager, ∀ n, m.rangeBegin = 1 →
        m.rangeEnd = (ofMemoryMap ds).rangeEnd → (m.allocate n).1.error ≠ .kSuccess →
        kFrameCount ∈ m.allocateFrames n := by
      intro m n hbegin hm hfail
      refine mem_allocateFromFrames hfail ?_ (by omega)
      rw [hbegin]
      decide
    by_cases hsuccess : ((ofMemoryMap ds).allocate kHeapFrames).1.error = .kSuccess
    · obtain ⟨programBreak, hinit⟩ := exists_initializeMemoryManager hsuccess
      have := hlater programBreak _ hinit [] ((ofMemoryMap ds).rangeEnd + 1) kFrameCount
        (hmem _ _ (by simp [after, ofMemoryMap]) (by simp [after])
          (allocate_error_of_rangeEnd_lt (by simp [after])))
      omega
    · have := hheap kFrameCount (hmem _ _ rfl rfl hsuccess)
      omega
  · intro hend
    refine ⟨fun f hf => (lt_of_mem_allocateFromFrames hf).trans_le hend,
      fun programBreak m hinit calls n f hf => ?_⟩
    have hlt := lt_of_mem_allocateFromFrames hf
    rw [after_rangeEnd, initializeMemoryManager_eq_some hinit, allocate_rangeEnd] at hlt
    exact hlt.trans_le hend

/-- The boot code and every later `Allocate` touch bits of the array only, if and only if the memory
map is covered by the bitmap. -/
theorem bitsInBounds_iff (memoryMap : List MemoryDescriptor)
    (haligned : ∀ desc ∈ memoryMap, kBytesPerFrame ∣ desc.physicalStart) :
    BitsInBounds memoryMap ↔ Covered memoryMap := by
  have hrange : (ofMemoryMap memoryMap).rangeEnd ≤ kFrameCount ↔
      lastAvailableEnd memoryMap ≤ kMaxPhysicalMemoryBytes := by
    have hcount : kMaxPhysicalMemoryBytes = kFrameCount * kBytesPerFrame := by decide
    have hdvd := lastAvailableEnd_dvd haligned
    rw [ofMemoryMap_rangeEnd, hcount]
    simp only [kBytesPerFrame] at *
    omega
  constructor
  · intro h
    obtain ⟨hgap, hother⟩ := (marked_lt_iff haligned).mp h.marked
    exact ⟨hgap, hother, hrange.mp ((allocate_lt_iff memoryMap).mp ⟨h.heap, h.later⟩)⟩
  · intro h
    obtain ⟨hheap, hlater⟩ := (allocate_lt_iff memoryMap).mpr (hrange.mpr h.available)
    exact ⟨(marked_lt_iff haligned).mpr ⟨h.gap, h.other⟩, hheap, hlater⟩

theorem bitsInBounds_iff_smallMap : BitsInBounds smallMap ↔ Covered smallMap :=
  bitsInBounds_iff smallMap (by decide)

/-- One gigabyte of conventional memory and a reserved region of the machine below 1 TiB. -/
def reservedHighMap : List MemoryDescriptor := [⟨7, 0, 0x40000⟩, ⟨0, 0xfd00000000, 0x300000⟩]

theorem not_bitsInBounds_reservedHighMap :
    ¬ ∀ memoryMap : List MemoryDescriptor,
      (∀ desc ∈ memoryMap, kBytesPerFrame ∣ desc.physicalStart) → BitsInBounds memoryMap := by
  intro h
  have hmark : (⟨0xfd00000, 0x300000⟩ : Block) ∈ (Boot.loop {} reservedHighMap).marked := by decide
  have hlt := (h reservedHighMap (by decide)).marked _ hmark 0xfd00000
    (mem_markAllocatedFrames.mpr ⟨by decide, by decide⟩)
  exact absurd hlt (by decide)

end MikanOS.BitmapMemoryManager
