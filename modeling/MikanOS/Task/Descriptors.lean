import MikanOS.Library.X86Descriptors
import MikanOS.Task.ContextSwitch
import MikanOS.Task.CallApp

/-! # The descriptor tables

`segment.cpp` and `interrupt.cpp`: the global descriptor table, the task state segment and the interrupt descriptor
table, as the processor reads them. -/

namespace MikanOS

open X86 X86.Memory

/-- `DescriptorType`. -/
abbrev DescriptorType := BitVec 4

namespace DescriptorType

def kTSSAvailable : DescriptorType := 9
def kInterruptGate : DescriptorType := 14
def kReadWrite : DescriptorType := 2
def kExecuteRead : DescriptorType := 10

end DescriptorType

/-- The bits of `SegmentDescriptor`. -/
structure SegmentDescriptor where
  limitLow : BitVec 16
  baseLow : BitVec 16
  baseMiddle : BitVec 8
  type : DescriptorType
  systemSegment : BitVec 1
  descriptorPrivilegeLevel : BitVec 2
  present : BitVec 1
  limitHigh : BitVec 4
  available : BitVec 1
  longMode : BitVec 1
  defaultOperationSize : BitVec 1
  granularity : BitVec 1
  baseHigh : BitVec 8

namespace SegmentDescriptor

variable (d : SegmentDescriptor)

/-- The byte with the bits from `type` to `present`. -/
def access : BitVec 8 := d.present ++ d.descriptorPrivilegeLevel ++ d.systemSegment ++ d.type

/-- The byte with the bits from `limit_high` to `granularity`. -/
def flags : BitVec 8 := d.granularity ++ d.defaultOperationSize ++ d.longMode ++ d.available ++ d.limitHigh

/-- `data`. -/
def data : BitVec 64 := d.baseHigh ++ d.flags ++ d.access ++ d.baseMiddle ++ d.baseLow ++ d.limitLow

end SegmentDescriptor

/-! ## `segment.cpp` -/

/-- `SetCodeSegment`. -/
def SetCodeSegment (type : DescriptorType) (descriptorPrivilegeLevel base limit : BitVec 32) :
    SegmentDescriptor where
  baseLow := (base &&& 0xffff).setWidth 16
  baseMiddle := (base >>> 16 &&& 0xff).setWidth 8
  baseHigh := (base >>> 24 &&& 0xff).setWidth 8
  limitLow := (limit &&& 0xffff).setWidth 16
  limitHigh := (limit >>> 16 &&& 0xf).setWidth 4
  type := type
  systemSegment := 1
  descriptorPrivilegeLevel := descriptorPrivilegeLevel.setWidth 2
  present := 1
  available := 0
  longMode := 1
  defaultOperationSize := 0
  granularity := 1

/-- `SetDataSegment`. -/
def SetDataSegment (type : DescriptorType) (descriptorPrivilegeLevel base limit : BitVec 32) :
    SegmentDescriptor :=
  { SetCodeSegment type descriptorPrivilegeLevel base limit with longMode := 0, defaultOperationSize := 1 }

/-- `SetSystemSegment`. -/
def SetSystemSegment (type : DescriptorType) (descriptorPrivilegeLevel base limit : BitVec 32) :
    SegmentDescriptor :=
  { SetCodeSegment type descriptorPrivilegeLevel base limit with systemSegment := 0, longMode := 0 }

def kKernelCS : BitVec 16 := 1 <<< 3
def kKernelSS : BitVec 16 := 2 <<< 3
def kTSS : BitVec 16 := 5 <<< 3

/-- The `ss` that `ExecuteFile` passes to `CallApp`, and the code selector that `CallApp` makes of it. -/
def kUserSS : BitVec 16 := 3 <<< 3 ||| 3
def kUserCS : BitVec 16 := kUserSS + 8

/-- `SetupSegments`: the `data` of `gdt`. -/
def SetupSegments : List (BitVec 64) :=
  [ 0,
    (SetCodeSegment .kExecuteRead 0 0 0xfffff).data,
    (SetDataSegment .kReadWrite 0 0 0xfffff).data,
    (SetDataSegment .kReadWrite 3 0 0xfffff).data,
    (SetCodeSegment .kExecuteRead 3 0 0xfffff).data,
    0, 0 ]

/-- `SetTSS`, with the array `tss` at its address. -/
def SetTSS (m : X86.Memory) (tss : BitVec 64) (index : Nat) (value : BitVec 64) : X86.Memory :=
  (m.write (tss + BitVec.ofNat 64 (4 * index)) fun i : Fin 4 => (value &&& 0xffffffff).extractLsb' (8 * i) 8).write
    (tss + BitVec.ofNat 64 (4 * (index + 1))) fun i : Fin 4 => (value >>> 32).extractLsb' (8 * i) 8

/-- `kISTForTimer`. -/
def kISTForTimer : Nat := 1

/-- The stores of `InitializeTSS` to `tss`, with what the two calls of `AllocateStackArea` return. -/
def storeTSS (m : X86.Memory) (tss stack istStack : BitVec 64) : X86.Memory :=
  SetTSS (SetTSS m tss 1 stack) tss (7 + 2 * kISTForTimer) istStack

/-- The stores of `InitializeTSS` to `gdt`. `sizeof(tss)` is 104. -/
def InitializeTSS (gdt : List (BitVec 64)) (tss : BitVec 64) : List (BitVec 64) :=
  (gdt.set (kTSS >>> 3).toNat
      (SetSystemSegment .kTSSAvailable 0 ((tss &&& 0xffffffff).setWidth 32) (104 - 1)).data).set
    ((kTSS >>> 3).toNat + 1) (tss >>> 32)

/-! ## `interrupt.cpp` -/

/-- `InterruptDescriptor`, with the `data` of its attribute. -/
structure InterruptDescriptor where
  offsetLow : BitVec 16
  segmentSelector : BitVec 16
  attr : BitVec 16
  offsetMiddle : BitVec 16
  offsetHigh : BitVec 32
  reserved : BitVec 32

/-- The two words of a descriptor. -/
def InterruptDescriptor.words (desc : InterruptDescriptor) : BitVec 64 × BitVec 64 :=
  (desc.offsetMiddle ++ desc.attr ++ desc.segmentSelector ++ desc.offsetLow, desc.reserved ++ desc.offsetHigh)

/-- `MakeIDTAttr`. -/
def MakeIDTAttr (type : DescriptorType) (descriptorPrivilegeLevel : BitVec 8) (present : Bool)
    (interruptStackTable : BitVec 8) : BitVec 16 :=
  BitVec.ofBool present ++ descriptorPrivilegeLevel.setWidth 2 ++ 0#1 ++ type ++ 0#5 ++
    interruptStackTable.setWidth 3

/-- `SetIDTEntry`. -/
def SetIDTEntry (desc : InterruptDescriptor) (attr : BitVec 16) (offset : BitVec 64) (segmentSelector : BitVec 16) :
    InterruptDescriptor :=
  { desc with
    attr
    offsetLow := (offset &&& 0xffff).setWidth 16
    offsetMiddle := (offset >>> 16 &&& 0xffff).setWidth 16
    offsetHigh := (offset >>> 32).setWidth 32
    segmentSelector }

abbrev InterruptTable := BitVec 8 → InterruptDescriptor

/-- `InterruptVector::Number`. -/
def kXHCI : BitVec 8 := 0x40
def kLAPICTimer : BitVec 8 := 0x41

/-- The exceptions that have a handler, from #DE to #VE. -/
def faults : List (BitVec 8) := [0, 1, 3, 4, 5, 6, 7, 8, 10, 11, 12, 13, 14, 16, 17, 18, 19, 20]

/-- The lambda `set_idt_entry`, with the address of the handler for each vector. -/
def setIdtEntry (handler : BitVec 8 → BitVec 64) (idt : InterruptTable) (irq : BitVec 8) : InterruptTable :=
  Function.update idt irq (SetIDTEntry (idt irq) (MakeIDTAttr .kInterruptGate 0 true 0) (handler irq) kKernelCS)

/-- `InitializeInterrupt`, on the table that is zero at first. -/
def InitializeInterrupt (handler : BitVec 8 → BitVec 64) : InterruptTable :=
  let idt := setIdtEntry handler (fun _ => ⟨0, 0, 0, 0, 0, 0⟩) kXHCI
  let timer := SetIDTEntry (idt kLAPICTimer) (MakeIDTAttr .kInterruptGate 0 true (BitVec.ofNat 8 kISTForTimer))
    (handler kLAPICTimer) kKernelCS
  faults.foldl (setIdtEntry handler) (Function.update idt kLAPICTimer timer)

/-- The tables after the initialization. -/
def descriptorTables (handler : BitVec 8 → BitVec 64) (tss : BitVec 64) : Tables where
  gdt := InitializeTSS SetupSegments tss
  idt := fun vector => (InitializeInterrupt handler vector).words
  tr := kTSS

/-! ## What the processor reads -/

variable {handler : BitVec 8 → BitVec 64} {tss : BitVec 64} {vector : BitVec 8}

theorem fields_access (d : SegmentDescriptor) :
    d.access.extractLsb' 0 4 = d.type ∧ d.access.getLsbD 4 = d.systemSegment.getLsbD 0 ∧
      d.access.extractLsb' 5 2 = d.descriptorPrivilegeLevel ∧ d.access.getLsbD 7 = d.present.getLsbD 0 := by
  rw [SegmentDescriptor.access]
  refine ⟨?_, ?_, ?_, ?_⟩
  · ext i hi
    simp
    grind
  · simp
    grind
  · ext i hi
    simp
    grind
  · simp
    grind

theorem fields_flags (d : SegmentDescriptor) :
    d.flags.getLsbD 5 = d.longMode.getLsbD 0 ∧ d.flags.getLsbD 6 = d.defaultOperationSize.getLsbD 0 := by
  rw [SegmentDescriptor.flags]
  constructor
  · simp
    grind
  · simp
    grind

/-- The fields that the processor finds in a segment descriptor. -/
theorem decode_data (d : SegmentDescriptor) : Segment.decode d.data =
    ⟨d.baseHigh ++ d.baseMiddle ++ d.baseLow, d.type, d.systemSegment.getLsbD 0, d.descriptorPrivilegeLevel,
      d.present.getLsbD 0, d.longMode.getLsbD 0, d.defaultOperationSize.getLsbD 0⟩ := by
  obtain ⟨htype, hsystem, hdpl, hpresent⟩ := fields_access d
  obtain ⟨hlong, hbig⟩ := fields_flags d
  rw [← htype, ← hsystem, ← hdpl, ← hpresent, ← hlong, ← hbig]
  simp only [Segment.decode, SegmentDescriptor.data, Segment.mk.injEq]
  generalize d.access = access, d.flags = flags
  refine ⟨?_, ?_, ?_, ?_, ?_, ?_, ?_⟩
  · ext i hi
    simp
    grind
  · ext i hi
    simp
    grind
  · simp
    grind
  · ext i hi
    simp
    grind
  · simp
    grind
  · simp
    grind
  · simp
    grind

/-- The fields that it finds in a gate. -/
theorem decode_words (desc : InterruptDescriptor) : Gate.decode desc.words.1 desc.words.2 =
    ⟨desc.offsetHigh ++ desc.offsetMiddle ++ desc.offsetLow, desc.segmentSelector, desc.attr.extractLsb' 0 3,
      desc.attr.extractLsb' 8 4, desc.attr.extractLsb' 13 2, desc.attr.getLsbD 15⟩ := by
  simp only [Gate.decode, InterruptDescriptor.words, Gate.mk.injEq]
  refine ⟨?_, ?_, ?_, ?_, ?_, ?_⟩
  · ext i hi
    simp
    grind
  · ext i hi
    simp
    grind
  · ext i hi
    simp
    grind
  · ext i hi
    simp
    grind
  · ext i hi
    simp
    grind
  · simp
    grind

theorem setWidth_mask {n k : Nat} (h : k ≤ n) (v : BitVec n) :
    (v &&& BitVec.ofNat n (2 ^ k - 1)).setWidth k = v.setWidth k := by
  refine BitVec.eq_of_getLsbD_eq fun i hi => ?_
  rw [BitVec.getLsbD_setWidth, BitVec.getLsbD_setWidth, BitVec.getLsbD_and, BitVec.getLsbD_ofNat,
    Nat.testBit_two_pow_sub_one, decide_eq_true hi, decide_eq_true (hi.trans_le h), Bool.and_true, Bool.and_true]

/-- The offset of an entry is put together again. -/
theorem decode_entry (attr : BitVec 16) (offset : BitVec 64) :
    let desc := SetIDTEntry ⟨0, 0, 0, 0, 0, 0⟩ attr offset kKernelCS
    Gate.decode desc.words.1 desc.words.2 = ⟨offset, kKernelCS, attr.extractLsb' 0 3, attr.extractLsb' 8 4,
      attr.extractLsb' 13 2, attr.getLsbD 15⟩ := by
  have hlow : (offset &&& 0xffff).setWidth 16 = offset.setWidth 16 := setWidth_mask (by decide) offset
  have hmiddle : (offset >>> 16 &&& 0xffff).setWidth 16 = (offset >>> 16).setWidth 16 :=
    setWidth_mask (by decide) _
  have hoffset : (offset >>> 32).setWidth 32 ++ (offset >>> 16).setWidth 16 ++ offset.setWidth 16 = offset := by
    ext i hi
    simp
    grind
  intro desc
  rw [decode_words]
  simp only [desc, SetIDTEntry, hlow, hmiddle, hoffset]

/-- The address of the task state segment is put together again. -/
theorem taskState_descriptorTables : (descriptorTables handler tss).taskState = some tss := by
  let d := SetSystemSegment .kTSSAvailable 0 ((tss &&& 0xffffffff).setWidth 32) (104 - 1)
  have hsegment : (descriptorTables handler tss).segment kTSS = some (Segment.decode d.data) := by
    rw [Tables.segment, if_neg (by decide)]
    rfl
  have hhigh : (descriptorTables handler tss).gdt[Tables.index kTSS + 1]? = some (tss >>> 32) := rfl
  have hstate : (Segment.decode d.data).IsTaskState := by
    have hfields : d.present = 1 ∧ d.systemSegment = 0 ∧ d.type = .kTSSAvailable := ⟨rfl, rfl, rfl⟩
    rw [decode_data, Segment.IsTaskState, hfields.1, hfields.2.1, hfields.2.2]
    exact ⟨show (1#1).getLsbD 0 = true by decide, show (0#1).getLsbD 0 = false by decide, .inl rfl⟩
  have hbase : (tss >>> 32).extractLsb' 0 32 ++ (Segment.decode d.data).base = tss := by
    have hmask : (tss &&& 0xffffffff).setWidth 32 = tss.setWidth 32 := setWidth_mask (by decide) tss
    have hlow : (tss.setWidth 32 &&& 0xffff).setWidth 16 = (tss.setWidth 32).setWidth 16 :=
      setWidth_mask (by decide) _
    have hmiddle : (tss.setWidth 32 >>> 16 &&& 0xff).setWidth 8 = (tss.setWidth 32 >>> 16).setWidth 8 :=
      setWidth_mask (by decide) _
    have hhigh : (tss.setWidth 32 >>> 24 &&& 0xff).setWidth 8 = (tss.setWidth 32 >>> 24).setWidth 8 :=
      setWidth_mask (by decide) _
    rw [decode_data]
    simp only [d, SetSystemSegment, SetCodeSegment, hmask, hlow, hmiddle, hhigh]
    ext i hi
    simp
    grind
  have htr : (descriptorTables handler tss).tr = kTSS := rfl
  rw [Tables.taskState, htr, hsegment, hhigh]
  simp only [Option.bind_eq_bind, Option.bind_some, if_pos hstate, hbase]

/-- The two halves that are stored are a word. -/
theorem SetTSS_eq (m : X86.Memory) (index : Nat) (value : BitVec 64) :
    SetTSS m tss index value = m.store (tss + BitVec.ofNat 64 (4 * index)) value := by
  have haddr : tss + BitVec.ofNat 64 (4 * (index + 1)) = tss + BitVec.ofNat 64 (4 * index) + 4 := by
    rw [Nat.mul_add, BitVec.ofNat_add, ← BitVec.add_assoc]
    rfl
  have hmask : (0xffffffff : BitVec 64) = BitVec.ofNat 64 (2 ^ 32 - 1) := rfl
  rw [SetTSS, haddr, hmask]
  generalize tss + BitVec.ofNat 64 (4 * index) = a
  funext x
  by_cases hlow : (x - a).toNat < 4
  · have hnot : ¬(x - (a + 4)).toNat < 4 := by bv_omega
    rw [store, write_of_le (Nat.le_of_not_lt hnot), write, dif_pos hlow, write, dif_pos (by omega)]
    refine BitVec.eq_of_getLsbD_eq fun i hi => ?_
    have hin : 8 * (x - a).toNat + i < 32 := by omega
    rw [BitVec.getLsbD_extractLsb', BitVec.getLsbD_extractLsb', BitVec.getLsbD_and, BitVec.getLsbD_ofNat,
      Nat.testBit_two_pow_sub_one, decide_eq_true hin, decide_eq_true (hin.trans (by decide)), Bool.and_self,
      Bool.and_true]
  by_cases hhigh : (x - a).toNat < 8
  · have hin : (x - (a + 4)).toNat < 4 := by bv_omega
    have hsub : 32 + 8 * (x - (a + 4)).toNat = 8 * (x - a).toNat := by bv_omega
    rw [store, write, dif_pos hin, write, dif_pos hhigh]
    refine BitVec.eq_of_getLsbD_eq fun i hi => ?_
    rw [BitVec.getLsbD_extractLsb', BitVec.getLsbD_extractLsb', BitVec.getLsbD_ushiftRight, ← Nat.add_assoc,
      hsub]
  · have hnot : ¬(x - (a + 4)).toNat < 4 := by bv_omega
    rw [store, write_of_le (Nat.le_of_not_lt hnot), write_of_le (Nat.le_of_not_lt hlow),
      write_of_le (Nat.le_of_not_lt hhigh)]

/-- The stacks that are found in the task state segment. -/
theorem stacks_storeTSS {m m' : X86.Memory} {stack istStack : BitVec 64}
    (h : AgreeOn (storeTSS m tss stack istStack) m' tss 104) :
    ringStack m' tss 0 = stack ∧ interruptStack m' tss 1 = istStack := by
  have hword : ∀ d, d + 8 ≤ 104 → m'.load (tss + BitVec.ofNat 64 d) =
      (storeTSS m tss stack istStack).load (tss + BitVec.ofNat 64 d) := fun d hd =>
    load_congr fun i hi => by
      rw [BitVec.add_assoc, ← BitVec.ofNat_add]
      exact (h (d + i) (by omega)).symm
  have hring : tss + 4 + 8 * (0 : BitVec 2).setWidth 64 = tss + BitVec.ofNat 64 (4 * 1) := by bv_omega
  have hist : tss + 28 + 8 * (1 : BitVec 3).setWidth 64 =
      tss + BitVec.ofNat 64 (4 * (7 + 2 * kISTForTimer)) := by
    rw [BitVec.add_assoc]
    rfl
  rw [ringStack, interruptStack, hring, hist, hword _ (by decide), hword _ (by decide), storeTSS, SetTSS_eq,
    SetTSS_eq]
  have hkeep : AgreeOn ((m.store (tss + BitVec.ofNat 64 (4 * 1)) stack).store
      (tss + BitVec.ofNat 64 (4 * (7 + 2 * kISTForTimer))) istStack)
      (m.store (tss + BitVec.ofNat 64 (4 * 1)) stack) (tss + BitVec.ofNat 64 (4 * 1)) 8 := fun i hi =>
    write_of_le (by rw [kISTForTimer]; bv_omega)
  exact ⟨(load_congr hkeep).trans load_store, load_store⟩

theorem foldl_setIdtEntry (irqs : List (BitVec 8)) (hnd : irqs.Nodup) (idt : InterruptTable) :
    irqs.foldl (setIdtEntry handler) idt vector = if vector ∈ irqs then
      SetIDTEntry (idt vector) (MakeIDTAttr .kInterruptGate 0 true 0) (handler vector) kKernelCS
    else idt vector := by
  induction irqs generalizing idt with
  | nil => rfl
  | cons irq irqs ih =>
    obtain ⟨hnot, hnd⟩ := List.nodup_cons.mp hnd
    rw [List.foldl_cons, ih hnd, setIdtEntry]
    by_cases heq : vector = irq
    · subst heq
      rw [if_neg hnot, Function.update_self, if_pos List.mem_cons_self]
    · rw [Function.update_of_ne heq]
      simp [heq]

/-- Each vector with a handler has a gate to it, that of the timer with a stack of its own. -/
theorem initializeInterrupt_apply : InitializeInterrupt handler vector =
    if vector = kLAPICTimer then SetIDTEntry ⟨0, 0, 0, 0, 0, 0⟩
      (MakeIDTAttr .kInterruptGate 0 true (BitVec.ofNat 8 kISTForTimer)) (handler vector) kKernelCS
    else if vector = kXHCI ∨ vector ∈ faults then
      SetIDTEntry ⟨0, 0, 0, 0, 0, 0⟩ (MakeIDTAttr .kInterruptGate 0 true 0) (handler vector) kKernelCS
    else ⟨0, 0, 0, 0, 0, 0⟩ := by
  have htimer : kLAPICTimer ∉ faults ∧ kLAPICTimer ≠ kXHCI := by decide
  have hxhci : kXHCI ∉ faults := by decide
  rw [InitializeInterrupt, foldl_setIdtEntry faults (by decide)]
  by_cases hv : vector = kLAPICTimer
  · subst hv
    rw [if_neg htimer.1, Function.update_self, if_pos rfl, setIdtEntry, Function.update_of_ne htimer.2]
  rw [Function.update_of_ne hv, if_neg hv, setIdtEntry]
  by_cases hx : vector = kXHCI
  · subst hx
    rw [if_neg hxhci, Function.update_self, if_pos (.inl rfl)]
  · rw [Function.update_of_ne hx]
    simp [hx]

/-! ## The selectors -/

/-- A selector of the kernel and one of the applications, for code and for stacks. -/
theorem selectors_descriptorTables :
    (descriptorTables handler tss).CodeOf kKernelCS 0 ∧ (descriptorTables handler tss).StackOf kKernelSS 0 ∧
      (descriptorTables handler tss).CodeOf kUserCS 3 ∧ (descriptorTables handler tss).StackOf kUserSS 3 := by
  have hsegment : ∀ selector d, Tables.index selector ≠ 0 →
      (descriptorTables handler tss).gdt[Tables.index selector]? = some (SegmentDescriptor.data d) →
      (descriptorTables handler tss).segment selector = some (Segment.decode d.data) := by
    intro selector d hnull hget
    rw [Tables.segment, if_neg hnull, hget, Option.map_some]
  refine ⟨⟨_, hsegment kKernelCS (SetCodeSegment .kExecuteRead 0 0 0xfffff) (by decide) rfl, ?_⟩,
    ⟨_, hsegment kKernelSS (SetDataSegment .kReadWrite 0 0 0xfffff) (by decide) rfl, ?_⟩,
    ⟨_, hsegment kUserCS (SetCodeSegment .kExecuteRead 3 0 0xfffff) (by decide) rfl, ?_⟩,
    ⟨_, hsegment kUserSS (SetDataSegment .kReadWrite 3 0 0xfffff) (by decide) rfl, ?_⟩⟩
  all_goals
    rw [decode_data]
    decide

/-! ## Delivery -/

/-- The vectors with a handler. -/
def Handled (vector : BitVec 8) : Prop := vector = kLAPICTimer ∨ vector = kXHCI ∨ vector ∈ faults

instance : DecidablePred Handled := fun _ => inferInstanceAs (Decidable (_ ∨ _))

/-- The stack for an interrupt: that of the timer, that of the ring, or the one in use. -/
def interruptTop (cpu : Core) (stack istStack : BitVec 64) (vector : BitVec 8) : BitVec 64 :=
  if vector = kLAPICTimer then istStack else if cpu.regs.seg .cs = kUserCS then stack else cpu.reg .rsp

/-- The gate that the processor finds for a vector. -/
theorem gate_descriptorTables : Gate.decode ((descriptorTables handler tss).idt vector).1
    ((descriptorTables handler tss).idt vector).2 =
      if Handled vector then ⟨handler vector, kKernelCS, if vector = kLAPICTimer then 1 else 0, 14, 0, true⟩
      else ⟨0, 0, 0, 0, 0, false⟩ := by
  have hidt : (descriptorTables handler tss).idt vector = (InitializeInterrupt handler vector).words := rfl
  rw [hidt, initializeInterrupt_apply]
  by_cases htimer : vector = kLAPICTimer
  · rw [if_pos htimer, if_pos (.inl htimer), if_pos htimer, decode_entry]
    rfl
  by_cases hother : vector = kXHCI ∨ vector ∈ faults
  · rw [if_neg htimer, if_pos hother, if_pos (.inr hother), if_neg htimer, decode_entry]
    rfl
  · have hnot : ¬Handled vector := fun h => h.elim htimer hother
    rw [if_neg htimer, if_neg hother, if_neg hnot]
    decide

/-- In the rings that the kernel uses an interrupt goes to its handler, in ring 0 and on the stack for it, if there
is a handler. -/
theorem deliver_descriptorTables {cpu : Core} {m : X86.Memory} {stack istStack : BitVec 64}
    (hm : AgreeOn (storeTSS m tss stack istStack) cpu.mem tss 104)
    (hcs : cpu.regs.seg .cs = kKernelCS ∨ cpu.regs.seg .cs = kUserCS) (error : Option (BitVec 64)) :
    cpu.deliver (descriptorTables handler tss) vector error =
      if Handled vector then
        let cpu' := cpu.interrupt (interruptTop cpu stack istStack vector) (handler vector) kKernelCS
          (if cpu.regs.seg .cs = kUserCS then 0 else cpu.regs.seg .ss)
        some (error.elim cpu' cpu'.push)
      else none := by
  obtain ⟨hring, hist⟩ := stacks_storeTSS hm
  obtain ⟨⟨code, hcode, hcode64, hdpl, -⟩, -⟩ := @selectors_descriptorTables handler tss
  rw [Core.deliver, gate_descriptorTables]
  by_cases hhandled : Handled vector
  · have hlevel : (0 : BitVec 2) ≤ (cpu.regs.seg .cs).setWidth 2 := Nat.zero_le _
    have hinner : (0 : BitVec 2) < (cpu.regs.seg .cs).setWidth 2 ↔ cpu.regs.seg .cs = kUserCS := by
      obtain h | h := hcs <;> rw [h] <;> decide
    have hist' : (if vector = kLAPICTimer then (1 : BitVec 3) else 0) ≠ 0 ↔ vector = kLAPICTimer := by
      by_cases h : vector = kLAPICTimer <;> simp [h]
    have hselector : kKernelCS &&& 0xfffc ||| (0 : BitVec 2).setWidth 16 = kKernelCS := by decide
    rw [if_pos hhandled, if_pos hhandled, hcode, taskState_descriptorTables]
    simp only [Option.bind_eq_bind, Option.bind_some, hdpl, hcode64, hlevel, hinner, hist', hselector, and_self,
      if_true]
    have htop : (if vector = kLAPICTimer then interruptStack cpu.mem tss (if vector = kLAPICTimer then 1 else 0)
        else if cpu.regs.seg .cs = kUserCS then ringStack cpu.mem tss 0 else cpu.reg .rsp) =
          interruptTop cpu stack istStack vector := by
      rw [interruptTop, hring]
      by_cases htimer : vector = kLAPICTimer
      · rw [if_pos htimer, if_pos htimer, if_pos htimer, hist]
      · rw [if_neg htimer, if_neg htimer]
    rw [htop]
    rfl
  · rw [if_neg hhandled, if_neg hhandled]
    rfl

/-- The handler of the timer writes to the stack for it only. -/
theorem mem_intHandler {cpu : Core} {top entry : BitVec 64} {cs ss : BitVec 16} {x : BitVec 64}
    (hx : 752 ≤ (aligned top - 1 - x).toNat) :
    ((cpu.interrupt top entry cs ss).run intHandlerLAPICTimer).mem x = cpu.mem x := by
  have hregs : 8 * (regWords cpu.regs ++ sysWords cpu.regs (aligned top - 48)).length = 192 := rfl
  have hframe : 8 * (interruptFrame cpu.regs).length = 48 := rfl
  have hfpu : 512 ≤ (x - (aligned top - 560)).toNat := by bv_omega
  rw [(@run_intHandler top entry cs ss cpu).2, pushAll_apply (by rw [hregs]; bv_omega), write_of_le hfpu,
    pushAll_apply (by rw [hframe]; bv_omega)]

/-- An interrupt reaches its handler in ring 0 on the stack for it, from the kernel and from an application. That of
the timer finds the registers of the interrupted program in the context it has stored, and has written to its own
stack only. `syscall` and `sysret` change between the same two rings. -/
theorem enters_kernel {cpu : Core} {m : X86.Memory} {stack istStack : BitVec 64}
    (hm : AgreeOn (storeTSS m tss stack istStack) cpu.mem tss 104)
    (hcs : cpu.regs.seg .cs = kKernelCS ∨ cpu.regs.seg .cs = kUserCS) (lstar : BitVec 64) :
    (∀ vector error, cpu.deliver (descriptorTables handler tss) vector error =
      if Handled vector then
        let cpu' := cpu.interrupt (interruptTop cpu stack istStack vector) (handler vector) kKernelCS
          (if cpu.regs.seg .cs = kUserCS then 0 else cpu.regs.seg .ss)
        some (error.elim cpu' cpu'.push)
      else none) ∧
    (∃ cpu', cpu.deliver (descriptorTables handler tss) kLAPICTimer none = some cpu' ∧
      let timer := cpu'.run intHandlerLAPICTimer
      TaskContext.Holds timer.mem (timer.reg .rdi) cpu.regs ∧
        ∀ x, 752 ≤ (aligned istStack - 1 - x).toNat → timer.mem x = cpu.mem x) ∧
    ((cpu.syscall syscallStar lstar 0).regs.seg .cs = kKernelCS ∧
      (descriptorTables handler tss).InRing (cpu.syscall syscallStar lstar 0).regs 0) ∧
    (cpu.sysret syscallStar).regs.seg .cs = kUserCS ∧
      (descriptorTables handler tss).InRing (cpu.sysret syscallStar).regs 3 := by
  obtain ⟨hkernelCS, hkernelSS, huserCS, huserSS⟩ := @selectors_descriptorTables handler tss
  have hdeliver := fun vector => @deliver_descriptorTables handler tss vector cpu m stack istStack hm hcs
  have htimer := hdeliver kLAPICTimer none
  rw [if_pos (.inl rfl)] at htimer
  exact ⟨hdeliver, ⟨_, htimer, holds_intHandler cpu, fun x hx => mem_intHandler hx⟩, ⟨rfl, hkernelCS, hkernelSS⟩,
    rfl, huserCS, huserSS⟩

/-- An application is interrupted by the timer. -/
theorem enters_kernel_app :
    let mem := storeTSS (fun _ => 0) 0x30000 0x50000 0x60000
    let cpu : Core :=
      ⟨⟨fun _ => 0xffffffffffffe000, 0xffff800000001000, 0x202, fun _ => 0x23, 0x1000, fun _ => 0⟩, mem⟩
    let tables := descriptorTables (fun vector => 0x100000 + vector.setWidth 64) 0x30000
    ∃ cpu', cpu.deliver tables kLAPICTimer none = some cpu' ∧
      TaskContext.Holds (cpu'.run intHandlerLAPICTimer).mem ((cpu'.run intHandlerLAPICTimer).reg .rdi)
        cpu.regs := by
  intro mem cpu tables
  obtain ⟨cpu', hdeliver, hholds, -⟩ := (@enters_kernel (fun vector => 0x100000 + vector.setWidth 64) 0x30000 cpu
    (fun _ => 0) 0x50000 0x60000 (fun _ _ => rfl) (.inr rfl) 0x100200).2.1
  exact ⟨cpu', hdeliver, hholds⟩

end MikanOS
