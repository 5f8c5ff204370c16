import MikanOS.Error

/-! # The frame allocator

`memory_manager.hpp`, `memory_manager.cpp`: one bit for each 4 KiB frame of physical memory, packed
into 64-bit lines; `Allocate` is a first-fit search for a run of clear bits. A `FrameID` is the
number of its frame. -/

namespace MikanOS

def kBytesPerFrame : Nat := 4096

/-- `kNullFrame`: the largest `size_t`. -/
def kNullFrame : Nat := 2 ^ 64 - 1

namespace BitmapMemoryManager

def kMaxPhysicalMemoryBytes : Nat := 128 * 1024 * 1024 * 1024
def kFrameCount : Nat := kMaxPhysicalMemoryBytes / kBytesPerFrame
def kBitsPerMapLine : Nat := 64

/-- `MapLineType`: one line of the bitmap. -/
abbrev MapLineType := BitVec 64

end BitmapMemoryManager

open BitmapMemoryManager in
/-- The allocator's state; the defaults are those of the constructor. `alloc_map_` is read and
written only at line indices below `kFrameCount / kBitsPerMapLine`. -/
structure BitmapMemoryManager where
  allocMap : Nat → MapLineType := fun _ => 0#64
  rangeBegin : Nat := 0
  rangeEnd : Nat := kFrameCount

namespace BitmapMemoryManager

variable (m : BitmapMemoryManager)

def getBit (frame : Nat) : Bool :=
  let lineIndex := frame / kBitsPerMapLine
  let bitIndex := frame % kBitsPerMapLine
  (m.allocMap lineIndex &&& 1#64 <<< bitIndex) != 0

def setBit (frame : Nat) (allocated : Bool) : BitmapMemoryManager :=
  let lineIndex := frame / kBitsPerMapLine
  let bitIndex := frame % kBitsPerMapLine
  let line := m.allocMap lineIndex
  { m with
    allocMap := Function.update m.allocMap lineIndex <|
      if allocated then line ||| 1#64 <<< bitIndex else line &&& ~~~(1#64 <<< bitIndex) }

def markAllocated (startFrame : Nat) (numFrames : Nat) : BitmapMemoryManager :=
  numFrames.fold (fun i _ m => m.setBit (startFrame + i) true) m

def free (startFrame : Nat) (numFrames : Nat) : Error × BitmapMemoryManager :=
  (.kSuccess, numFrames.fold (fun i _ m => m.setBit (startFrame + i) false) m)

def setMemoryRange (rangeBegin rangeEnd : Nat) : BitmapMemoryManager :=
  { m with rangeBegin, rangeEnd }

/-- How the inner loop of `Allocate` ends: past the range, at a used frame, or with a free run. -/
inductive Scan where
  | pastEnd
  | used (i : Nat)
  | found
  deriving DecidableEq

/-- The inner loop of `Allocate` from its counter `i` on, with `remaining = num_frames - i`. -/
def scan (startFrameID : Nat) (i : Nat) : (remaining : Nat) → Scan
  | 0 => .found
  | remaining + 1 =>
    if m.rangeEnd ≤ startFrameID + i then .pastEnd
    else if m.getBit (startFrameID + i) then .used i
    else scan startFrameID (i + 1) remaining

theorem scan_used_lt {m : BitmapMemoryManager} {start i remaining j : Nat}
    (h : m.scan start i remaining = .used j) : start + j < m.rangeEnd := by
  induction remaining generalizing i with
  | zero => simp [scan] at h
  | succ remaining ih =>
    simp only [scan] at h
    split at h
    · contradiction
    · split at h
      · cases h
        omega
      · exact ih h

/-- The outer loop of `Allocate`, started at the candidate `startFrameID`. Each repetition starts
at a later frame of the range. -/
def allocateFrom (numFrames : Nat) (startFrameID : Nat) :
    WithError Nat × BitmapMemoryManager :=
  match h : m.scan startFrameID 0 numFrames with
  | .pastEnd => (⟨kNullFrame, .kNoEnoughMemory⟩, m)
  | .found => (⟨startFrameID, .kSuccess⟩, m.markAllocated startFrameID numFrames)
  | .used i => allocateFrom numFrames (startFrameID + (i + 1))
termination_by m.rangeEnd - startFrameID
decreasing_by have := scan_used_lt h; omega

def allocate (numFrames : Nat) : WithError Nat × BitmapMemoryManager :=
  m.allocateFrom numFrames m.rangeBegin

/-! ## Bits -/

private theorem and_bit_ne_zero (line : MapLineType) {i : Nat} (hi : i < 64) :
    ((line &&& 1#64 <<< i) != 0) = line.getLsbD i := by
  rw [show 1#64 <<< i = BitVec.twoPow 64 i from rfl, BitVec.and_twoPow]
  split
  · rename_i h
    rw [h, bne_iff_ne]
    intro h0
    have := congrArg (·.getLsbD i) h0
    simp [hi] at this
  · rename_i h
    simpa using h

private theorem getLsbD_or_bit (line : MapLineType) {i : Nat} (hi : i < 64) (j : Nat) :
    (line ||| 1#64 <<< i).getLsbD j = (decide (i = j) || line.getLsbD j) := by
  rw [show 1#64 <<< i = BitVec.twoPow 64 i from rfl]
  simp [BitVec.getLsbD_twoPow, hi, Bool.or_comm]

private theorem getLsbD_and_not_bit (line : MapLineType) (i j : Nat) :
    (line &&& ~~~(1#64 <<< i)).getLsbD j = (!decide (i = j) && line.getLsbD j) := by
  rw [show 1#64 <<< i = BitVec.twoPow 64 i from rfl]
  by_cases hj : j < 64
  · simp [hj, Bool.and_comm, eq_comm]
  · simp [BitVec.getLsbD_of_ge _ _ (Nat.le_of_not_lt hj)]

theorem getBit_eq_getLsbD (frame : Nat) :
    m.getBit frame = (m.allocMap (frame / 64)).getLsbD (frame % 64) :=
  and_bit_ne_zero _ (Nat.mod_lt _ (by decide))

/-- Two frames share line and bit only if they are the same frame. -/
@[simp] theorem getBit_setBit (frame g : Nat) (allocated : Bool) :
    (m.setBit frame allocated).getBit g = if g = frame then allocated else m.getBit g := by
  have hlt : frame % 64 < 64 := Nat.mod_lt _ (by decide)
  simp only [getBit_eq_getLsbD, setBit, kBitsPerMapLine]
  by_cases hline : g / 64 = frame / 64
  · have hbit : frame % 64 = g % 64 ↔ g = frame := by omega
    rw [hline, Function.update_self]
    cases allocated
    · rw [if_neg (by decide), getLsbD_and_not_bit]
      by_cases h : g = frame <;> simp [hbit, h]
    · rw [if_pos rfl, getLsbD_or_bit _ hlt]
      by_cases h : g = frame <;> simp [hbit, h]
  · have hne : g ≠ frame := fun h => hline (by rw [h])
    rw [Function.update_of_ne hline, if_neg hne]

@[simp] theorem setBit_rangeBegin (frame : Nat) (b : Bool) :
    (m.setBit frame b).rangeBegin = m.rangeBegin := rfl

@[simp] theorem setBit_rangeEnd (frame : Nat) (b : Bool) :
    (m.setBit frame b).rangeEnd = m.rangeEnd := rfl

/-- The loop that `Free` and `MarkAllocated` share, up to the value it writes. -/
private theorem fold_setBit (start n : Nat) (b : Bool) :
    let m' := n.fold (fun i _ m => m.setBit (start + i) b) m
    (∀ g, m'.getBit g = if start ≤ g ∧ g < start + n then b else m.getBit g) ∧
      m'.rangeBegin = m.rangeBegin ∧ m'.rangeEnd = m.rangeEnd := by
  induction n with
  | zero => exact ⟨fun g => (if_neg (by omega)).symm, rfl, rfl⟩
  | succ n ih =>
    simp only [Nat.fold_succ, setBit_rangeBegin, setBit_rangeEnd, getBit_setBit]
    refine ⟨fun g => ?_, ih.2⟩
    rw [ih.1]
    by_cases h : g = start + n
    · rw [if_pos h, if_pos (by omega)]
    · rw [if_neg h]
      exact if_congr (by omega) rfl rfl

@[simp] theorem getBit_markAllocated (start n : Nat) (g : Nat) :
    (m.markAllocated start n).getBit g = (decide (start ≤ g ∧ g < start + n) || m.getBit g) := by
  rw [markAllocated, (fold_setBit m start n true).1]
  split <;> simp [*]

@[simp] theorem getBit_free (start n : Nat) (g : Nat) :
    (m.free start n).2.getBit g = (!decide (start ≤ g ∧ g < start + n) && m.getBit g) := by
  rw [free, (fold_setBit m start n false).1]
  split <;> simp [*]

@[simp] theorem markAllocated_rangeBegin (start n : Nat) :
    (m.markAllocated start n).rangeBegin = m.rangeBegin := (fold_setBit m start n true).2.1

@[simp] theorem markAllocated_rangeEnd (start n : Nat) :
    (m.markAllocated start n).rangeEnd = m.rangeEnd := (fold_setBit m start n true).2.2

@[simp] theorem free_rangeBegin (start n : Nat) :
    (m.free start n).2.rangeBegin = m.rangeBegin := (fold_setBit m start n false).2.1

@[simp] theorem free_rangeEnd (start n : Nat) :
    (m.free start n).2.rangeEnd = m.rangeEnd := (fold_setBit m start n false).2.2

@[simp] theorem setMemoryRange_rangeBegin (b e : Nat) :
    (m.setMemoryRange b e).rangeBegin = b := rfl

@[simp] theorem setMemoryRange_rangeEnd (b e : Nat) : (m.setMemoryRange b e).rangeEnd = e := rfl

@[simp] theorem getBit_setMemoryRange (b e g : Nat) :
    (m.setMemoryRange b e).getBit g = m.getBit g := rfl

/-- The constructor leaves every frame free. -/
@[simp] theorem getBit_init (g : Nat) : ({} : BitmapMemoryManager).getBit g = false := by
  simp [getBit_eq_getLsbD]

end BitmapMemoryManager

end MikanOS
