import MikanOS.Library.X86

/-! # Segments, gates and the task state segment

How a processor in 64-bit mode reads its descriptor tables, and where it goes on when it delivers an interrupt
through an interrupt gate. -/

namespace X86

/-- What a segment descriptor says. -/
structure Segment where
  base : BitVec 32
  type : BitVec 4
  nonSystem : Bool
  dpl : BitVec 2
  present : Bool
  long : Bool
  big : Bool
  deriving DecidableEq

def Segment.decode (d : BitVec 64) : Segment where
  base := d.extractLsb' 56 8 ++ d.extractLsb' 32 8 ++ d.extractLsb' 16 16
  type := d.extractLsb' 40 4
  nonSystem := d.getLsbD 44
  dpl := d.extractLsb' 45 2
  present := d.getLsbD 47
  long := d.getLsbD 53
  big := d.getLsbD 54

namespace Segment

variable (s : Segment)

/-- Code of the 64-bit mode that does not conform to the level of its caller. -/
def IsCode64 : Prop :=
  s.present = true ∧ s.nonSystem = true ∧ s.type.getLsbD 3 = true ∧ s.type.getLsbD 2 = false ∧ s.long = true ∧
    s.big = false

/-- Data that can be written to, as a stack segment must be. -/
def IsWritable : Prop :=
  s.present = true ∧ s.nonSystem = true ∧ s.type.getLsbD 3 = false ∧ s.type.getLsbD 1 = true

/-- A task state segment, available or busy. -/
def IsTaskState : Prop := s.present = true ∧ s.nonSystem = false ∧ (s.type = 9 ∨ s.type = 11)

instance : Decidable s.IsCode64 := inferInstanceAs (Decidable (_ ∧ _))
instance : Decidable s.IsWritable := inferInstanceAs (Decidable (_ ∧ _))
instance : Decidable s.IsTaskState := inferInstanceAs (Decidable (_ ∧ _))

end Segment

/-- What a descriptor of the interrupt descriptor table says. -/
structure Gate where
  offset : BitVec 64
  selector : BitVec 16
  ist : BitVec 3
  type : BitVec 4
  dpl : BitVec 2
  present : Bool
  deriving DecidableEq

def Gate.decode (low high : BitVec 64) : Gate where
  offset := high.extractLsb' 0 32 ++ low.extractLsb' 48 16 ++ low.extractLsb' 0 16
  selector := low.extractLsb' 16 16
  ist := low.extractLsb' 32 3
  type := low.extractLsb' 40 4
  dpl := low.extractLsb' 45 2
  present := low.getLsbD 47

/-- The global descriptor table, the interrupt descriptor table with a descriptor for every vector, and the task
register. -/
structure Tables where
  gdt : List (BitVec 64)
  idt : BitVec 8 → BitVec 64 × BitVec 64
  tr : BitVec 16

namespace Tables

variable (t : Tables)

/-- The place of a selector in the table. -/
def index (selector : BitVec 16) : Nat := (selector >>> 3).toNat

/-- The segment of a selector that is not the null selector. -/
def segment (selector : BitVec 16) : Option Segment :=
  if index selector = 0 then none else (t.gdt[index selector]?).map Segment.decode

/-- The address of the task state segment, whose descriptor has 16 bytes. -/
def taskState : Option (BitVec 64) := do
  let s ← t.segment t.tr
  let high ← t.gdt[index t.tr + 1]?
  if s.IsTaskState then some (high.extractLsb' 0 32 ++ s.base) else none

/-- The selector is one of code in a ring. -/
def CodeOf (selector : BitVec 16) (ring : BitVec 2) : Prop :=
  ∃ s, t.segment selector = some s ∧ s.IsCode64 ∧ s.dpl = ring ∧ selector.setWidth 2 = ring

/-- The selector is one of a stack in a ring. -/
def StackOf (selector : BitVec 16) (ring : BitVec 2) : Prop :=
  ∃ s, t.segment selector = some s ∧ s.IsWritable ∧ s.dpl = ring ∧ selector.setWidth 2 = ring

/-- The registers are those of a program in a ring. -/
def InRing (regs : Regs) (ring : BitVec 2) : Prop := t.CodeOf (regs.seg .cs) ring ∧ t.StackOf (regs.seg .ss) ring

end Tables

/-- The stack pointer for a ring in the task state segment at `base`. -/
def ringStack (m : Memory) (base : BitVec 64) (ring : BitVec 2) : BitVec 64 :=
  m.load (base + 4 + 8 * ring.setWidth 64)

/-- A stack pointer of its interrupt stack table, which counts from 1. -/
def interruptStack (m : Memory) (base : BitVec 64) (ist : BitVec 3) : BitVec 64 :=
  m.load (base + 28 + 8 * ist.setWidth 64)

/-- The delivery of an interrupt with a vector, and of an exception with its error code, up to the first instruction
of the handler. `none`: the descriptors do not allow it. -/
def Core.deliver (cpu : Core) (t : Tables) (vector : BitVec 8) (error : Option (BitVec 64)) : Option Core := do
  let gate := Gate.decode (t.idt vector).1 (t.idt vector).2
  let cpl := (cpu.regs.seg .cs).setWidth 2
  let code ← t.segment gate.selector
  let base ← t.taskState
  if gate.present ∧ gate.type = 14 ∧ code.IsCode64 ∧ code.dpl ≤ cpl then
    let top :=
      if gate.ist ≠ 0 then interruptStack cpu.mem base gate.ist
      else if code.dpl < cpl then ringStack cpu.mem base code.dpl
      else cpu.reg .rsp
    -- the new stack segment of an inner ring is a null selector
    let ss := if code.dpl < cpl then code.dpl.setWidth 16 else cpu.regs.seg .ss
    let cpu' := cpu.interrupt top gate.offset (gate.selector &&& 0xfffc ||| code.dpl.setWidth 16) ss
    some (error.elim cpu' cpu'.push)
  else none

end X86
