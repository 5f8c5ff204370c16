import MikanOS.Memory.Allocate
import MikanOS.Paging.PageMapEntry

/-! # Physical memory and the MMU

The memory under the page maps, the walk of the processor through them, and the loads and stores of
the two privilege levels. The kernel's identity map gives it every frame under its own address, so a
kernel pointer is a frame number here. Accessed and dirty bits are left out, and so is the TLB. -/

namespace MikanOS

/-- Physical memory: the 512 words of each frame, which are entries if the frame holds a page
map. -/
abbrev Memory := Nat → Fin 512 → PageMapEntry

/-- Byte `k` of a word, the lowest first. -/
def getByte (w : BitVec 64) (k : Nat) : UInt8 := .ofBitVec (w.extractLsb' (8 * k) 8)

def setByte (w : BitVec 64) (k : Nat) (b : UInt8) : BitVec 64 :=
  (w &&& ~~~((0xff#8).setWidth 64 <<< (8 * k))) ||| b.toBitVec.setWidth 64 <<< (8 * k)

theorem getByte_setByte (w : BitVec 64) (b : UInt8) {j k : Nat} (hj : j < 8) (hk : k < 8) :
    getByte (setByte w k b) j = if j = k then b else getByte w j := by
  apply UInt8.eq_of_toBitVec_eq
  rw [apply_ite UInt8.toBitVec]
  apply BitVec.eq_of_getLsbD_eq
  intro i hi
  have hones : (0xff#8).getLsbD i = true := by
    rw [show 0xff#8 = BitVec.allOnes 8 from rfl, BitVec.getLsbD_allOnes]
    exact decide_eq_true hi
  simp only [getByte, setByte, BitVec.getLsbD_extractLsb', BitVec.getLsbD_or, BitVec.getLsbD_and,
    BitVec.getLsbD_not, BitVec.getLsbD_shiftLeft, BitVec.getLsbD_setWidth,
    show 8 * j + i < 64 by omega, decide_true, Bool.true_and, hi]
  rcases Nat.lt_trichotomy j k with h | rfl | h
  · rw [if_neg (by omega)]
    simp [show 8 * j + i < 8 * k by omega, hi]
  · simp only [Nat.not_lt.mpr (Nat.le_add_right _ _), Nat.add_sub_cancel_left,
      hones, show i < 64 by omega]
    simp
  · rw [if_neg (by omega)]
    simp [show ¬ 8 * j + i < 8 * k by omega, hi,
      BitVec.getLsbD_of_ge _ (8 * j + i - 8 * k) (show 8 ≤ 8 * j + i - 8 * k by omega)]

/-- Bytes make up a word. -/
theorem setByte_getByte (w : BitVec 64) (k : Nat) : setByte w k (getByte w k) = w := by
  apply BitVec.eq_of_getLsbD_eq
  intro i hi
  simp only [setByte, getByte, BitVec.getLsbD_or, BitVec.getLsbD_and, BitVec.getLsbD_not,
    BitVec.getLsbD_shiftLeft, BitVec.getLsbD_setWidth, BitVec.getLsbD_extractLsb', hi,
    decide_true, Bool.true_and]
  by_cases hlo : i < 8 * k
  · simp [hlo]
  · by_cases hhi : i - 8 * k < 8
    · have hones : (0xff#8).getLsbD (i - 8 * k) = true := by
        rw [show 0xff#8 = BitVec.allOnes 8 from rfl, BitVec.getLsbD_allOnes]
        exact decide_eq_true hhi
      simp only [hlo, hhi, hones, show i - 8 * k < 64 by omega,
        show 8 * k + (i - 8 * k) = i by omega]
      simp
    · simp [hlo, hhi, BitVec.getLsbD_of_ge (0xff#8) _ (Nat.not_lt.mp hhi)]

namespace Memory

variable (mem : Memory)

def setPage (f : Nat) (page : Fin 512 → PageMapEntry) : Memory := Function.update mem f page

def setEntry (table : Nat) (i : Fin 512) (e : PageMapEntry) : Memory :=
  mem.setPage table (Function.update (mem table) i e)

/-- The byte at an offset in a frame. -/
def byte (f : Nat) (offset : Fin 4096) : UInt8 :=
  getByte (mem f ⟨offset / 8, by omega⟩) (offset % 8)

def setByteAt (f : Nat) (offset : Fin 4096) (b : UInt8) : Memory :=
  let i : Fin 512 := ⟨offset / 8, by omega⟩
  mem.setEntry f i (setByte (mem f i) (offset % 8) b)

/-- Bytes written to a frame from an offset on. -/
def setBytes (mem : Memory) (f : Nat) : (offset : Nat) → List UInt8 → Memory
  | _, [] => mem
  | offset, b :: bytes =>
    setBytes (mem.setByteAt f (Fin.ofNat 4096 offset) b) f (offset + 1) bytes

@[simp] theorem setPage_self (f : Nat) (page : Fin 512 → PageMapEntry) :
    mem.setPage f page f = page := Function.update_self ..

theorem setPage_of_ne {f g : Nat} (h : g ≠ f) (page : Fin 512 → PageMapEntry) :
    mem.setPage f page g = mem g := Function.update_of_ne h ..

@[simp] theorem setPage_setPage (f : Nat) (page page' : Fin 512 → PageMapEntry) :
    (mem.setPage f page).setPage f page' = mem.setPage f page' := Function.update_idem ..

@[simp] theorem setEntry_self (table : Nat) (i : Fin 512) (e : PageMapEntry) :
    mem.setEntry table i e table i = e := by simp [setEntry]

theorem setEntry_apply (table : Nat) (i : Fin 512) (e : PageMapEntry) (f : Nat) (j : Fin 512) :
    mem.setEntry table i e f j = if f = table ∧ j = i then e else mem f j := by
  by_cases hf : f = table
  · subst hf
    by_cases hj : j = i
    · subst hj
      simp
    · simp [setEntry, hj]
  · simp [setEntry, setPage_of_ne _ hf, hf]

theorem setEntry_of_ne {table f : Nat} (h : f ≠ table) (i : Fin 512) (e : PageMapEntry) :
    mem.setEntry table i e f = mem f := setPage_of_ne _ h _

theorem setEntry_of_index_ne {i j : Fin 512} (h : j ≠ i) (table f : Nat) (e : PageMapEntry) :
    mem.setEntry table i e f j = mem f j := by simp [setEntry_apply, h]

@[simp] theorem setEntry_setEntry (table : Nat) (i : Fin 512) (e e' : PageMapEntry) :
    (mem.setEntry table i e).setEntry table i e' = mem.setEntry table i e' := by
  simp [setEntry]

/-- Writing back what is there changes nothing. -/
theorem setEntry_eq_self {table : Nat} {i : Fin 512} {e : PageMapEntry} (h : mem table i = e) :
    mem.setEntry table i e = mem := by
  simp [setEntry, ← h, setPage]

theorem byte_congr {mem mem' : Memory} {f f' : Nat} (h : mem f = mem' f') (offset : Fin 4096) :
    mem.byte f offset = mem'.byte f' offset := by
  rw [byte, byte, h]

theorem byte_of_zero {mem : Memory} {f : Nat} (h : mem f = fun _ => 0) (o : Fin 4096) :
    mem.byte f o = 0 := by
  rw [byte, h, getByte]
  apply UInt8.eq_of_toBitVec_eq
  exact BitVec.extractLsb'_zero

theorem byte_setByteAt (f g : Nat) (o o' : Fin 4096) (b : UInt8) :
    (mem.setByteAt f o b).byte g o' = if g = f ∧ o' = o then b else mem.byte g o' := by
  simp only [byte, setByteAt, setEntry_apply, Fin.mk.injEq]
  by_cases h : g = f ∧ o'.val / 8 = o.val / 8
  · rw [if_pos h, getByte_setByte _ _ (Nat.mod_lt _ (by decide)) (Nat.mod_lt _ (by decide))]
    have hiff : o'.val % 8 = o.val % 8 ↔ o' = o := by
      rw [Fin.ext_iff]
      omega
    obtain ⟨rfl, hw⟩ := h
    simp only [hiff, true_and, hw]
  · rw [if_neg h, if_neg]
    rintro ⟨rfl, rfl⟩
    exact h ⟨rfl, rfl⟩

/-- Writing the byte that is there changes nothing. -/
theorem setByteAt_eq_self {f : Nat} {o : Fin 4096} {b : UInt8} (h : mem.byte f o = b) :
    mem.setByteAt f o b = mem := by
  rw [setByteAt, ← h, byte, setByte_getByte]
  exact setEntry_eq_self _ rfl

/-- Bytes are written by replacing the page that holds them. -/
theorem setByteAt_eq_setPage (f : Nat) (o : Fin 4096) (b : UInt8) :
    mem.setByteAt f o b = mem.setPage f (mem.setByteAt f o b f) := by
  simp [setByteAt, setEntry]

theorem setBytes_eq_setPage (f offset : Nat) (bytes : List UInt8) :
    mem.setBytes f offset bytes = mem.setPage f (mem.setBytes f offset bytes f) := by
  induction bytes generalizing mem offset with
  | nil => simp [setBytes, setPage]
  | cons b bytes ih =>
    rw [setBytes, ih, setByteAt_eq_setPage]
    simp

end Memory

/-- The state that the paging code works on. `cr3` is the frame of the PML4, and `freed` lists the
frames that were given to `Free`, the last one first. -/
structure Machine where
  mem : Memory
  memoryManager : BitmapMemoryManager
  cr3 : Nat
  freed : List Nat

/-- Where the MMU finds a page, and what all entries on the way allow. -/
structure Translation where
  frame : Nat
  user : Bool
  writable : Bool
  deriving DecidableEq

/-- The frame within a huge page of a page directory (level 2) or a PDP table (level 3). -/
def hugeFrame (addr : LinearAddress4Level) (level : Nat) (e : PageMapEntry) : Nat :=
  if level = 2 then e.pointer / 512 * 512 + addr.page
  else e.pointer / (512 * 512) * (512 * 512) + addr.dir * 512 + addr.page

/-- The walk of the MMU from a table of the given level; at level 0 it has arrived at a page. -/
def walk (mem : Memory) (addr : LinearAddress4Level) : (level : Nat) → (table : Nat) →
    Option Translation
  | 0, page => some ⟨page, true, true⟩
  | level + 1, table =>
    let e := mem table (addr.part (level + 1))
    if e.present then
      if e.hugePage ∧ (level = 1 ∨ level = 2) then
        some ⟨hugeFrame addr (level + 1) e, e.user, e.writable⟩
      else (walk mem addr level e.pointer).map fun t =>
        ⟨t.frame, e.user && t.user, e.writable && t.writable⟩
    else none

theorem walk_succ (mem : Memory) (addr : LinearAddress4Level) (level table : Nat) :
    walk mem addr (level + 1) table =
      if (mem table (addr.part (level + 1))).present then
        if (mem table (addr.part (level + 1))).hugePage ∧ (level = 1 ∨ level = 2) then
          some ⟨hugeFrame addr (level + 1) (mem table (addr.part (level + 1))),
            (mem table (addr.part (level + 1))).user, (mem table (addr.part (level + 1))).writable⟩
        else (walk mem addr level (mem table (addr.part (level + 1))).pointer).map fun t =>
          ⟨t.frame, (mem table (addr.part (level + 1))).user && t.user,
            (mem table (addr.part (level + 1))).writable && t.writable⟩
      else none := rfl

/-- What a memory access can raise. -/
inductive Exception where
  | generalProtection
  | pageFault (errorCode : Nat)
  deriving DecidableEq

/-- The error code of a page fault: bit 0 for a present page, bit 1 for a store, bit 2 for user
mode. -/
def pageFaultCode (present rw user : Bool) : Nat :=
  present.toNat + 2 * rw.toNat + 4 * user.toNat

namespace Machine

variable (m : Machine)

def setPage (f : Nat) (page : Fin 512 → PageMapEntry) : Machine :=
  { m with mem := m.mem.setPage f page }

/-- An assignment to one page map entry. -/
def setEntry (table : Nat) (i : Fin 512) (e : PageMapEntry) : Machine :=
  { m with mem := m.mem.setEntry table i e }

def translate (addr : LinearAddress4Level) : Option Translation := walk m.mem addr 4 m.cr3

/-- The frame that a user access reaches. -/
def userAccess (addr : LinearAddress4Level) (rw : Bool) : Except Exception Nat :=
  if addr.Canonical then
    match m.translate addr with
    | none => .error (.pageFault (pageFaultCode false rw true))
    | some t =>
      if t.user && (!rw || t.writable) then .ok t.frame
      else .error (.pageFault (pageFaultCode true rw true))
  else .error .generalProtection

def userLoad (addr : LinearAddress4Level) : Except Exception UInt8 :=
  (m.userAccess addr false).map fun f => m.mem.byte f addr.offset

def userStore (addr : LinearAddress4Level) (b : UInt8) : Except Exception Machine :=
  (m.userAccess addr true).map fun f => { m with mem := m.mem.setByteAt f addr.offset b }

/-- A store of the kernel. As `CR0.WP` is cleared, it asks only that the page is present. -/
def supervisorStore (addr : LinearAddress4Level) (b : UInt8) : Except Exception Machine :=
  if addr.Canonical then
    match m.translate addr with
    | none => .error (.pageFault (pageFaultCode false true false))
    | some t => .ok { m with mem := m.mem.setByteAt t.frame addr.offset b }
  else .error .generalProtection

/-- The page around an address as the kernel reads it; it is present where the kernel does so. -/
def readPage (addr : LinearAddress4Level) : Fin 512 → PageMapEntry :=
  match m.translate addr with
  | none => fun _ => 0
  | some t => m.mem t.frame

/-- Bytes that the kernel writes to a page from its beginning on. -/
def writePage (addr : LinearAddress4Level) (bytes : List UInt8) : Machine :=
  match m.translate addr with
  | none => m
  | some t => { m with mem := m.mem.setBytes t.frame 0 bytes }

@[simp] theorem setEntry_mem (table : Nat) (i : Fin 512) (e : PageMapEntry) :
    (m.setEntry table i e).mem = m.mem.setEntry table i e := rfl
@[simp] theorem setEntry_memoryManager (table : Nat) (i : Fin 512) (e : PageMapEntry) :
    (m.setEntry table i e).memoryManager = m.memoryManager := rfl
@[simp] theorem setEntry_cr3 (table : Nat) (i : Fin 512) (e : PageMapEntry) :
    (m.setEntry table i e).cr3 = m.cr3 := rfl
@[simp] theorem setEntry_freed (table : Nat) (i : Fin 512) (e : PageMapEntry) :
    (m.setEntry table i e).freed = m.freed := rfl

end Machine

end MikanOS
