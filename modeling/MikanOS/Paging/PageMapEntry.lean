import Mathlib

/-! # Page map entries and linear addresses

`paging.hpp`: the two unions of the four-level paging structures. Pointers to page maps and pages
are aligned to 4 KiB and stand here as the numbers of their frames. -/

namespace MikanOS

/-- `PageMapEntry`: 64 bits of `data`, read through the accessors of the bit field. -/
abbrev PageMapEntry := BitVec 64

namespace PageMapEntry

variable (e : PageMapEntry)

def present : Bool := e.getLsbD 0
def writable : Bool := e.getLsbD 1
def user : Bool := e.getLsbD 2
def hugePage : Bool := e.getLsbD 7

/-- Assignment to a field of one bit. -/
def setBit (i : Nat) (b : Bool) : PageMapEntry :=
  if b then e ||| BitVec.twoPow 64 i else e &&& ~~~BitVec.twoPow 64 i

def setPresent (b : Bool) : PageMapEntry := setBit e 0 b
def setWritable (b : Bool) : PageMapEntry := setBit e 1 b
def setUser (b : Bool) : PageMapEntry := setBit e 2 b

/-- `Pointer`: the frame in the field `addr`. -/
def pointer : Nat := (e.extractLsb' 12 40).toNat

/-- `SetPointer`: the field `addr` takes the low 40 bits of the frame. -/
def setPointer (p : Nat) : PageMapEntry :=
  (e &&& ~~~((BitVec.allOnes 40).setWidth 64 <<< 12)) ||| (BitVec.ofNat 40 p).setWidth 64 <<< 12

variable {e}

theorem getLsbD_setBit (i : Nat) (b : Bool) {j : Nat} (hj : j < 64) :
    (setBit e i b).getLsbD j = if j = i then b else e.getLsbD j := by
  cases b
  · simp only [setBit, Bool.false_eq_true, if_false, BitVec.getLsbD_and, BitVec.getLsbD_not, hj,
      BitVec.getLsbD_twoPow]
    by_cases h : j = i
    · simp [← h, hj]
    · simp [h, Ne.symm h]
  · simp only [setBit, if_true, BitVec.getLsbD_or, BitVec.getLsbD_twoPow]
    by_cases h : j = i
    · simp [← h, hj]
    · simp [h, Ne.symm h]

theorem getLsbD_setPointer (p : Nat) {j : Nat} (hj : j < 64) :
    (setPointer e p).getLsbD j =
      if 12 ≤ j ∧ j < 52 then p.testBit (j - 12) else e.getLsbD j := by
  simp only [setPointer, BitVec.getLsbD_or, BitVec.getLsbD_and, BitVec.getLsbD_not,
    BitVec.getLsbD_shiftLeft, BitVec.getLsbD_setWidth, BitVec.getLsbD_allOnes,
    BitVec.getLsbD_ofNat]
  by_cases h12 : 12 ≤ j
  · by_cases h52 : j < 52
    · simp [h12, h52, hj, show ¬ j < 12 by omega, show j - 12 < 40 by omega,
        show j - 12 < 64 by omega]
    · simp [h12, h52, hj, show ¬ j < 12 by omega, show ¬ j - 12 < 40 by omega]
  · simp [h12, hj, show j < 12 by omega]

theorem pointer_setPointer {p : Nat} (hp : p < 2 ^ 40) : (setPointer e p).pointer = p := by
  apply Nat.eq_of_testBit_eq
  intro i
  rw [pointer, BitVec.testBit_toNat, BitVec.getLsbD_extractLsb']
  by_cases hi : i < 40
  · rw [getLsbD_setPointer _ (by omega)]
    simp [hi, show 12 + i < 52 by omega]
  · have : p < 2 ^ i := hp.trans_le (Nat.pow_le_pow_right (by decide) (by omega))
    simp [hi, Nat.testBit_lt_two_pow this]

theorem pointer_lt : e.pointer < 2 ^ 40 := (e.extractLsb' 12 40).isLt

/-- The flags lie below the field `addr`. -/
theorem pointer_setBit {i : Nat} (b : Bool) (hi : i < 12) :
    (setBit e i b).pointer = e.pointer := by
  apply Nat.eq_of_testBit_eq
  intro j
  simp only [pointer, BitVec.testBit_toNat, BitVec.getLsbD_extractLsb']
  by_cases hj : j < 40
  · rw [getLsbD_setBit i b (by omega), if_neg (by omega)]
  · simp [hj]

section Fields

variable (b : Bool) (p : Nat)

@[simp] theorem present_setPresent : (setPresent e b).present = b := getLsbD_setBit _ _ (by decide)
@[simp] theorem present_setWritable : (setWritable e b).present = e.present :=
  getLsbD_setBit _ _ (by decide)
@[simp] theorem present_setUser : (setUser e b).present = e.present :=
  getLsbD_setBit _ _ (by decide)
@[simp] theorem present_setPointer : (setPointer e p).present = e.present :=
  getLsbD_setPointer _ (by decide)

@[simp] theorem writable_setPresent : (setPresent e b).writable = e.writable :=
  getLsbD_setBit _ _ (by decide)
@[simp] theorem writable_setWritable : (setWritable e b).writable = b :=
  getLsbD_setBit _ _ (by decide)
@[simp] theorem writable_setUser : (setUser e b).writable = e.writable :=
  getLsbD_setBit _ _ (by decide)
@[simp] theorem writable_setPointer : (setPointer e p).writable = e.writable :=
  getLsbD_setPointer _ (by decide)

@[simp] theorem user_setPresent : (setPresent e b).user = e.user := getLsbD_setBit _ _ (by decide)
@[simp] theorem user_setWritable : (setWritable e b).user = e.user :=
  getLsbD_setBit _ _ (by decide)
@[simp] theorem user_setUser : (setUser e b).user = b := getLsbD_setBit _ _ (by decide)
@[simp] theorem user_setPointer : (setPointer e p).user = e.user :=
  getLsbD_setPointer _ (by decide)

@[simp] theorem hugePage_setPresent : (setPresent e b).hugePage = e.hugePage :=
  getLsbD_setBit _ _ (by decide)
@[simp] theorem hugePage_setWritable : (setWritable e b).hugePage = e.hugePage :=
  getLsbD_setBit _ _ (by decide)
@[simp] theorem hugePage_setUser : (setUser e b).hugePage = e.hugePage :=
  getLsbD_setBit _ _ (by decide)
@[simp] theorem hugePage_setPointer : (setPointer e p).hugePage = e.hugePage :=
  getLsbD_setPointer _ (by decide)

@[simp] theorem pointer_setPresent : (setPresent e b).pointer = e.pointer :=
  pointer_setBit b (by decide)
@[simp] theorem pointer_setWritable : (setWritable e b).pointer = e.pointer :=
  pointer_setBit b (by decide)
@[simp] theorem pointer_setUser : (setUser e b).pointer = e.pointer := pointer_setBit b (by decide)

/-- A zeroed table has no entries. -/
@[simp] theorem present_zero : present (0 : PageMapEntry) = false := rfl
@[simp] theorem hugePage_zero : hugePage (0 : PageMapEntry) = false := rfl

end Fields

/-- A flag that is set already is not changed by setting it. -/
theorem setBit_self (i : Nat) : setBit e i (e.getLsbD i) = e := by
  apply BitVec.eq_of_getLsbD_eq
  intro j hj
  rw [getLsbD_setBit _ _ hj]
  split
  · rename_i h
    rw [h]
  · rfl

theorem setUser_of_user (h : e.user = true) : setUser e true = e := by
  rw [← h]
  exact setBit_self _

theorem setWritable_of_writable (h : e.writable = true) : setWritable e true = e := by
  rw [← h]
  exact setBit_self _

end PageMapEntry

instance instNeZeroEntries : NeZero 512 := ⟨by decide⟩

instance instNeZeroOffsets : NeZero 4096 := ⟨by decide⟩

instance instNeZeroUpper : NeZero 65536 := ⟨by decide⟩

/-- `LinearAddress4Level`: the parts of a virtual address, with its unnamed upper 16 bits. -/
structure LinearAddress4Level where
  offset : Fin 4096
  page : Fin 512
  dir : Fin 512
  pdp : Fin 512
  pml4 : Fin 512
  upper : Fin 65536
  deriving DecidableEq

namespace LinearAddress4Level

/-- The union's view as one number. -/
def value (addr : LinearAddress4Level) : Nat :=
  addr.offset + 4096 * (addr.page + 512 * (addr.dir + 512 * (addr.pdp + 512 * (addr.pml4 +
    512 * addr.upper))))

def ofValue (v : Nat) : LinearAddress4Level where
  offset := Fin.ofNat 4096 v
  page := Fin.ofNat 512 (v / 2 ^ 12)
  dir := Fin.ofNat 512 (v / 2 ^ 21)
  pdp := Fin.ofNat 512 (v / 2 ^ 30)
  pml4 := Fin.ofNat 512 (v / 2 ^ 39)
  upper := Fin.ofNat 65536 (v / 2 ^ 48)

/-- `Part`, which is asked for the four levels only. -/
def part (addr : LinearAddress4Level) : (pageMapLevel : Nat) → Fin 512
  | 1 => addr.page
  | 2 => addr.dir
  | 3 => addr.pdp
  | 4 => addr.pml4
  | _ => 0

/-- `SetPart`, likewise. -/
def setPart (addr : LinearAddress4Level) (value : Fin 512) :
    (pageMapLevel : Nat) → LinearAddress4Level
  | 1 => { addr with page := value }
  | 2 => { addr with dir := value }
  | 3 => { addr with pdp := value }
  | 4 => { addr with pml4 := value }
  | _ => addr

/-- The offset is not among the parts that are asked for. -/
theorem part_offset (addr : LinearAddress4Level) (offset : Fin 4096) (level : Nat) :
    { addr with offset }.part level = addr.part level := by
  rcases level with _ | _ | _ | _ | _ | level <;> rfl

/-- The processor accepts an address if the bits above the 47th repeat it. -/
def Canonical (addr : LinearAddress4Level) : Prop :=
  addr.upper = if addr.pml4 < 256 then 0 else 65535

instance (addr : LinearAddress4Level) : Decidable addr.Canonical :=
  inferInstanceAs (Decidable (_ = _))

@[simp] theorem ofValue_value (addr : LinearAddress4Level) : ofValue addr.value = addr := by
  obtain ⟨o, p, d, q, l, u⟩ := addr
  simp only [ofValue, value, mk.injEq, Fin.ext_iff, Fin.ofNat]
  omega

theorem value_ofValue {v : Nat} (hv : v < 2 ^ 64) : (ofValue v).value = v := by
  simp only [ofValue, value, Fin.ofNat]
  omega

/-- Canonical addresses are known by their parts. -/
theorem Canonical.ext {a b : LinearAddress4Level} (ha : a.Canonical) (hb : b.Canonical)
    (hoff : a.offset = b.offset) (h : ∀ level, a.part level = b.part level) : a = b := by
  obtain ⟨o, p, d, q, l, u⟩ := a
  obtain ⟨o', p', d', q', l', u'⟩ := b
  have h1 : p = p' := h 1
  have h2 : d = d' := h 2
  have h3 : q = q' := h 3
  have h4 : l = l' := h 4
  have hu : u = u' := by
    rw [Canonical] at ha hb
    simp only at ha hb
    rw [ha, hb, h4]
  simp only at hoff
  rw [hoff, h1, h2, h3, h4, hu]

end LinearAddress4Level

end MikanOS
