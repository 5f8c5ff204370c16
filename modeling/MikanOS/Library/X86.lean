import Mathlib

/-! # Straight-line code of a processor with 64-bit registers

The instructions are those that system software needs to save and to restore the registers. `rflags` is
without RF, which no instruction leaves set, and VM, which the 64-bit mode lacks. -/

namespace X86

/-! ## Memory -/

abbrev Memory := BitVec 64 → BitVec 8

namespace Memory

variable (m : Memory) {m' : Memory} {a b sp x : BitVec 64} {v : BitVec 64}

/-- The little-endian word in the 8 bytes from `a` on. -/
def load (a : BitVec 64) : BitVec 64 :=
  BitVec.ofFnLE fun i : Fin 64 => (m (a + BitVec.ofNat 64 (i / 8))).getLsbD (i % 8)

/-- Bytes from `a` on replaced. -/
def write {n : Nat} (a : BitVec 64) (bytes : Fin n → BitVec 8) : Memory := fun x =>
  if h : (x - a).toNat < n then bytes ⟨_, h⟩ else m x

def store (a v : BitVec 64) : Memory :=
  m.write a fun i : Fin 8 => v.extractLsb' (8 * i) 8

/-- The `n` bytes from `src` on copied to `dst`. -/
def copy (dst src : BitVec 64) (n : Nat) : Memory :=
  m.write dst fun i : Fin n => m (src + BitVec.ofNat 64 i)

/-- Words stored one below the other. -/
def pushAll (m : Memory) (sp : BitVec 64) : List (BitVec 64) → Memory
  | [] => m
  | v :: vs => pushAll (m.store (sp - 8) v) (sp - 8) vs

/-- The same `n` bytes from `a` on. -/
def AgreeOn (m m' : Memory) (a : BitVec 64) (n : Nat) : Prop :=
  ∀ i < n, m (a + BitVec.ofNat 64 i) = m' (a + BitVec.ofNat 64 i)

/-- None of the `k` bytes from `a` on is one of the `n` bytes below `sp`. -/
def ClearOf (sp : BitVec 64) (n : Nat) (a : BitVec 64) (k : Nat) : Prop :=
  ∀ i < k, n ≤ (sp - 1 - (a + BitVec.ofNat 64 i)).toNat

variable {m} {n k : Nat} {bytes : Fin n → BitVec 8}

theorem write_of_le (h : n ≤ (x - a).toNat) : m.write a bytes x = m x := dif_neg (Nat.not_lt.mpr h)

theorem add_sub_toNat {i : Nat} (hi : i < 2 ^ 64) : (a + BitVec.ofNat 64 i - a).toNat = i := by
  rw [BitVec.add_comm, BitVec.add_sub_cancel, BitVec.toNat_ofNat, Nat.mod_eq_of_lt hi]

theorem write_apply (hn : n ≤ 2 ^ 64) (i : Fin n) : m.write a bytes (a + BitVec.ofNat 64 i) = bytes i := by
  have hi : (a + BitVec.ofNat 64 i - a).toNat = i := add_sub_toNat (i.isLt.trans_le hn)
  rw [write, dif_pos (hi.trans_lt i.isLt)]
  exact congrArg bytes (Fin.ext hi)

theorem load_congr_bytes (h : ∀ i < 8, m (a + BitVec.ofNat 64 i) = m' (b + BitVec.ofNat 64 i)) :
    m.load a = m'.load b := by
  refine congrArg BitVec.ofFnLE (funext fun i => ?_)
  rw [h (i / 8) (by omega)]

theorem load_congr (h : AgreeOn m m' a 8) : m.load a = m'.load a := load_congr_bytes h

theorem copy_apply (hn : n ≤ 2 ^ 64) {i : Nat} (hi : i < n) :
    m.copy a b n (a + BitVec.ofNat 64 i) = m (b + BitVec.ofNat 64 i) :=
  write_apply hn ⟨i, hi⟩

theorem load_store : (m.store a v).load a = v := by
  refine BitVec.eq_of_getLsbD_eq fun i hi => ?_
  have hbyte : m.store a v (a + BitVec.ofNat 64 (i / 8)) = v.extractLsb' (8 * (i / 8)) 8 :=
    write_apply (by decide) ⟨i / 8, by omega⟩
  rw [load, BitVec.getLsbD_ofFnLE, dif_pos hi, hbyte, BitVec.getLsbD_extractLsb']
  have hmod : i % 8 < 8 := Nat.mod_lt _ (by decide)
  rw [decide_eq_true hmod, Bool.true_and, Nat.div_add_mod]

theorem ClearOf.mono {d n' : Nat} (h : ClearOf sp n a k) (hn : n' ≤ n) {k' : Nat} (hk : d + k' ≤ k) :
    ClearOf sp n' (a + BitVec.ofNat 64 d) k' := fun i hi => by
  rw [BitVec.add_assoc, ← BitVec.ofNat_add]
  exact hn.trans (h (d + i) (by omega))

/-- What is not below `sp` stays when words are pushed. -/
theorem pushAll_apply {vs : List (BitVec 64)} (h : 8 * vs.length ≤ (sp - 1 - x).toNat) :
    pushAll m sp vs x = m x := by
  induction vs generalizing m sp with
  | nil => rfl
  | cons v vs ih =>
    rw [List.length_cons] at h
    have hbelow : (sp - 8 - 1 - x).toNat = (sp - 1 - x).toNat - 8 := by bv_omega
    have hout : 8 ≤ (x - (sp - 8)).toNat := by bv_omega
    rw [pushAll, ih (by omega)]
    exact write_of_le hout

theorem agreeOn_pushAll {vs : List (BitVec 64)} (h : ClearOf sp (8 * vs.length) a k) :
    AgreeOn (pushAll m sp vs) m a k := fun i hi => pushAll_apply (h i hi)

/-- The word that was pushed as number `j`. -/
theorem load_pushAll {vs : List (BitVec 64)} {j : Nat} (hj : j < vs.length) (hlen : 8 * vs.length < 2 ^ 64) :
    (pushAll m sp vs).load (sp - BitVec.ofNat 64 (8 * (j + 1))) = vs[j] := by
  induction vs generalizing m sp j with
  | nil => exact absurd hj (Nat.not_lt_zero _)
  | cons v vs ih =>
    rw [List.length_cons] at hj hlen
    rw [pushAll]
    cases j with
    | zero =>
      have hclear : ClearOf (sp - 8) (8 * vs.length) (sp - 8) 8 := fun i hi => by bv_omega
      exact (load_congr (agreeOn_pushAll hclear)).trans load_store
    | succ j =>
      have haddr : sp - BitVec.ofNat 64 (8 * (j + 1 + 1)) = sp - 8 - BitVec.ofNat 64 (8 * (j + 1)) := by
        bv_omega
      rw [haddr]
      exact ih (by omega) (by omega)

/-- The words from the last one up. -/
theorem load_pushAll_base {vs : List (BitVec 64)} {k : Nat} (hk : k < vs.length)
    (hlen : 8 * vs.length < 2 ^ 64) :
    (pushAll m sp vs).load (sp - BitVec.ofNat 64 (8 * vs.length) + BitVec.ofNat 64 (8 * k)) =
      vs[vs.length - 1 - k] := by
  have haddr : sp - BitVec.ofNat 64 (8 * vs.length) + BitVec.ofNat 64 (8 * k) =
      sp - BitVec.ofNat 64 (8 * (vs.length - 1 - k + 1)) := by bv_omega
  rw [haddr]
  exact load_pushAll (by omega) hlen

theorem pushAll_append {vs ws : List (BitVec 64)} :
    pushAll m sp (vs ++ ws) = pushAll (pushAll m sp vs) (sp - BitVec.ofNat 64 (8 * vs.length)) ws := by
  induction vs generalizing m sp with
  | nil => rw [List.nil_append, List.length_nil, pushAll, BitVec.sub_zero]
  | cons v vs ih =>
    have haddr : sp - 8 - BitVec.ofNat 64 (8 * vs.length) = sp - BitVec.ofNat 64 (8 * (v :: vs).length) := by
      rw [List.length_cons]
      bv_omega
    rw [List.cons_append, pushAll, ih, haddr, pushAll]

/-! ### Records of words -/

section Record

variable {ι : Type*} (index : ι → Nat)

/-- Words stored at their places in the record at `base`. -/
def storeAll (m : Memory) (base : BitVec 64) (l : List (ι × BitVec 64)) : Memory :=
  l.foldl (fun m p => m.store (base + BitVec.ofNat 64 (8 * index p.1)) p.2) m

variable {index} {base : BitVec 64} {l : List (ι × BitVec 64)}

theorem storeAll_append {l' : List (ι × BitVec 64)} :
    storeAll index m base (l ++ l') = storeAll index (storeAll index m base l) base l' := List.foldl_append

/-- What is not in the first `k` words of the record stays. -/
theorem storeAll_apply (hindex : ∀ i, index i < k) (h : ∀ i < 8 * k, x ≠ base + BitVec.ofNat 64 i) :
    storeAll index m base l x = m x := by
  induction l generalizing m with
  | nil => rfl
  | cons p l ih =>
    refine ih.trans (write_of_le ?_)
    by_contra hin
    have hp := hindex p.1
    refine h (8 * index p.1 + (x - (base + BitVec.ofNat 64 (8 * index p.1))).toNat) (by omega) ?_
    rw [BitVec.ofNat_add, BitVec.ofNat_toNat, BitVec.setWidth_eq]
    bv_omega

theorem load_storeAll_of_ne {i : ι} (hindex : ∀ j, index j < 2 ^ 32)
    (hi : ∀ p ∈ l, index p.1 ≠ index i) :
    (storeAll index m base l).load (base + BitVec.ofNat 64 (8 * index i)) =
      m.load (base + BitVec.ofNat 64 (8 * index i)) := by
  induction l generalizing m with
  | nil => rfl
  | cons p l ih =>
    refine (ih fun q hq => hi q (List.mem_cons_of_mem _ hq)).trans ?_
    refine load_congr fun j hj => write_of_le ?_
    have hne := hi p List.mem_cons_self
    have h1 := hindex p.1
    have h2 := hindex i
    generalize index p.1 = a at *
    generalize index i = b at *
    bv_omega

theorem load_storeAll {i : ι} {v : BitVec 64} (hindex : ∀ j, index j < 2 ^ 32)
    (hnd : (l.map fun p => index p.1).Nodup) (hi : (i, v) ∈ l) :
    (storeAll index m base l).load (base + BitVec.ofNat 64 (8 * index i)) = v := by
  obtain ⟨l₁, l₂, rfl⟩ := List.append_of_mem hi
  have hne : ∀ p ∈ l₂, index p.1 ≠ index i := by
    rw [List.map_append, List.map_cons] at hnd
    have hnot := (List.nodup_cons.mp hnd.of_append_right).1
    intro p hp heq
    exact hnot (List.mem_map.mpr ⟨p, hp, heq⟩)
  rw [← List.singleton_append, storeAll_append, storeAll_append, load_storeAll_of_ne hindex hne]
  exact load_store

end Record

end Memory

/-! ## Registers and instructions -/

inductive Reg where
  | rax | rcx | rdx | rbx | rsp | rbp | rsi | rdi
  | r8 | r9 | r10 | r11 | r12 | r13 | r14 | r15
  deriving DecidableEq, Repr

inductive Seg where
  | cs | ss | fs | gs
  deriving DecidableEq, Repr

/-- The registers. `rip` is the instruction that is executed when the registers are taken into use. -/
@[ext] structure Regs where
  gpr : Reg → BitVec 64
  rip : BitVec 64
  rflags : BitVec 64
  seg : Seg → BitVec 16
  cr3 : BitVec 64
  fpu : Fin 512 → BitVec 8

/-- A processor core and its memory, which the page tables in use map in the same way. -/
structure Core where
  regs : Regs
  mem : Memory

/-- `[base + disp]`. -/
structure Address where
  base : Reg
  disp : BitVec 64

inductive Operand where
  | reg (r : Reg)
  | mem (a : Address)

inductive Instr where
  | mov (dst src : Reg)
  | load (dst : Reg) (src : Address)
  | store (dst : Address) (src : Reg)
  | lea (dst : Reg) (src : Address)
  | sub (dst : Reg) (imm : BitVec 64)
  | movFromCr3 (dst : Reg)
  | movToCr3 (src : Reg)
  | movFromSeg (dst : Reg) (src : Seg)
  | movToSeg (dst : Seg) (src : Reg)
  | push (src : Operand)
  | pushfq
  | popMem (dst : Address)
  | fxsave (dst : Address)
  | fxrstor (src : Address)
  | iretq

/-- The status flags of a difference. -/
def subFlags (rflags a b : BitVec 64) : BitVec 64 :=
  let flag (i : Nat) (v : Bool) : BitVec 64 := (BitVec.ofBool v).setWidth 64 <<< i
  let evenBits := (List.range 8).countP (a - b).getLsbD % 2 = 0
  rflags &&& ~~~0x8d5 ||| flag 0 (a.ult b) ||| flag 2 (decide evenBits) |||
    flag 4 ((a.setWidth 4).ult (b.setWidth 4)) ||| flag 6 (a == b) ||| flag 7 (a - b).msb |||
    flag 11 (a.msb != b.msb && (a - b).msb != a.msb)

namespace Core

variable (cpu : Core)

def reg (r : Reg) : BitVec 64 := cpu.regs.gpr r

def setReg (r : Reg) (v : BitVec 64) : Core :=
  { cpu with regs := { cpu.regs with gpr := Function.update cpu.regs.gpr r v } }

def setSeg (s : Seg) (v : BitVec 16) : Core :=
  { cpu with regs := { cpu.regs with seg := Function.update cpu.regs.seg s v } }

/-- The address that an operand in memory has. -/
def addr (a : Address) : BitVec 64 := cpu.reg a.base + a.disp

def operand : Operand → BitVec 64
  | .reg r => cpu.reg r
  | .mem a => cpu.mem.load (cpu.addr a)

def push (v : BitVec 64) : Core :=
  let sp := cpu.reg .rsp - 8
  { cpu.setReg .rsp sp with mem := cpu.mem.store sp v }

def exec : Instr → Core
  | .mov dst src => cpu.setReg dst (cpu.reg src)
  | .load dst src => cpu.setReg dst (cpu.mem.load (cpu.addr src))
  | .store dst src => { cpu with mem := cpu.mem.store (cpu.addr dst) (cpu.reg src) }
  | .lea dst src => cpu.setReg dst (cpu.addr src)
  | .sub dst imm =>
    let cpu' := cpu.setReg dst (cpu.reg dst - imm)
    { cpu' with regs := { cpu'.regs with rflags := subFlags cpu.regs.rflags (cpu.reg dst) imm } }
  | .movFromCr3 dst => cpu.setReg dst cpu.regs.cr3
  | .movToCr3 src => { cpu with regs := { cpu.regs with cr3 := cpu.reg src } }
  -- the upper bits of the register stay
  | .movFromSeg dst src => cpu.setReg dst (cpu.reg dst &&& ~~~0xffff ||| (cpu.regs.seg src).setWidth 64)
  | .movToSeg dst src => cpu.setSeg dst ((cpu.reg src).setWidth 16)
  | .push src => cpu.push (cpu.operand src)
  | .pushfq => cpu.push cpu.regs.rflags
  | .popMem dst =>
    let v := cpu.mem.load (cpu.reg .rsp)
    let cpu' := cpu.setReg .rsp (cpu.reg .rsp + 8)
    { cpu' with mem := cpu.mem.store (cpu'.addr dst) v }
  | .fxsave dst => { cpu with mem := cpu.mem.write (cpu.addr dst) cpu.regs.fpu }
  | .fxrstor src =>
    { cpu with regs := { cpu.regs with fpu := fun i => cpu.mem (cpu.addr src + BitVec.ofNat 64 i) } }
  | .iretq =>
    let sp := cpu.reg .rsp
    { cpu with regs := { cpu.regs with
        rip := cpu.mem.load sp
        seg := Function.update (Function.update cpu.regs.seg .cs ((cpu.mem.load (sp + 8)).setWidth 16))
          .ss ((cpu.mem.load (sp + 32)).setWidth 16)
        rflags := cpu.mem.load (sp + 16)
        gpr := Function.update cpu.regs.gpr .rsp (cpu.mem.load (sp + 24)) } }

def run (is : List Instr) : Core := is.foldl exec cpu

/-- The delivery of an interrupt through a gate, with the frame below `top`. -/
def interrupt (top handler : BitVec 64) (cs ss : BitVec 16) : Core :=
  let sp := top &&& ~~~0xf
  { regs := { cpu.regs with
      gpr := Function.update cpu.regs.gpr .rsp (sp - 40)
      rip := handler
      rflags := cpu.regs.rflags &&& ~~~0x34300
      seg := Function.update (Function.update cpu.regs.seg .cs cs) .ss ss }
    mem := cpu.mem.pushAll sp [(cpu.regs.seg .ss).setWidth 64, cpu.reg .rsp, cpu.regs.rflags,
      (cpu.regs.seg .cs).setWidth 64, cpu.regs.rip] }

variable {cpu}

theorem run_append (is is' : List Instr) : cpu.run (is ++ is') = (cpu.run is).run is' := List.foldl_append

/-- The operand has the same value while `n` bytes are pushed. -/
def Stable (cpu : Core) (n : Nat) : Operand → Prop
  | .reg r => r ≠ .rsp
  | .mem a => a.base ≠ .rsp ∧ Memory.ClearOf (cpu.reg .rsp) n (cpu.addr a) 8

@[simp] theorem reg_setReg {r : Reg} (v : BitVec 64) : (cpu.setReg r v).reg r = v := by
  simp only [reg, setReg, Function.update_self]

theorem reg_setReg_of_ne {r r' : Reg} (h : r ≠ r') (v : BitVec 64) : (cpu.setReg r' v).reg r = cpu.reg r := by
  simp only [reg, setReg, Function.update_of_ne h]

theorem reg_push {r : Reg} (hr : r ≠ .rsp) (v : BitVec 64) : (cpu.push v).reg r = cpu.reg r :=
  Function.update_of_ne hr _ _

theorem rsp_push (v : BitVec 64) : (cpu.push v).reg .rsp = cpu.reg .rsp - 8 :=
  Function.update_self Reg.rsp _ cpu.regs.gpr

namespace Stable

variable {op : Operand} {n : Nat}

theorem operand_push (h : cpu.Stable (n + 8) op) (v : BitVec 64) :
    (cpu.push v).operand op = cpu.operand op := by
  cases op with
  | reg r => exact reg_push h v
  | mem a =>
    obtain ⟨hbase, hclear⟩ := h
    have haddr : (cpu.push v).addr a = cpu.addr a := congrArg (· + a.disp) (reg_push hbase v)
    have hagree : Memory.AgreeOn (cpu.mem.pushAll (cpu.reg .rsp) [v]) cpu.mem (cpu.addr a) 8 :=
      Memory.agreeOn_pushAll fun i hi => (Nat.le_add_left 8 n).trans (hclear i hi)
    rw [operand, haddr]
    exact Memory.load_congr hagree

theorem push (h : cpu.Stable (n + 8) op) (v : BitVec 64) : (cpu.push v).Stable n op := by
  cases op with
  | reg r => exact h
  | mem a =>
    obtain ⟨hbase, hclear⟩ := h
    have haddr : (cpu.push v).addr a = cpu.addr a := congrArg (· + a.disp) (reg_push hbase v)
    refine ⟨hbase, fun i hi => ?_⟩
    have := hclear i hi
    rw [rsp_push, haddr]
    bv_omega

end Stable

/-- A sequence of `push` instructions. -/
theorem run_push {ops : List Operand} (h : ∀ op ∈ ops, cpu.Stable (8 * ops.length) op) :
    cpu.run (ops.map .push) =
      { cpu.setReg .rsp (cpu.reg .rsp - BitVec.ofNat 64 (8 * ops.length)) with
        mem := cpu.mem.pushAll (cpu.reg .rsp) (ops.map cpu.operand) } := by
  induction ops generalizing cpu with
  | nil =>
    rw [List.length_nil, Nat.mul_zero, BitVec.sub_zero, setReg, reg, Function.update_eq_self]
    rfl
  | cons op ops ih =>
    have hrest : ∀ op' ∈ ops, cpu.Stable (8 * ops.length + 8) op' := fun op' hop =>
      h op' (List.mem_cons_of_mem _ hop)
    have hrun : cpu.run ((op :: ops).map .push) = (cpu.push (cpu.operand op)).run (ops.map .push) := rfl
    rw [hrun, ih fun op' hop => (hrest op' hop).push _, rsp_push]
    have hvalues : ops.map (cpu.push (cpu.operand op)).operand = ops.map cpu.operand :=
      List.map_congr_left fun op' hop => (hrest op' hop).operand_push _
    have haddr : cpu.reg .rsp - 8 - BitVec.ofNat 64 (8 * ops.length) =
        cpu.reg .rsp - BitVec.ofNat 64 (8 * (op :: ops).length) := by
      rw [List.length_cons]
      bv_omega
    rw [hvalues, haddr]
    simp only [setReg, push, Function.update_idem]
    rfl

/-- Pushes write below the stack pointer only. -/
theorem mem_run_push {ops : List Operand} {x : BitVec 64}
    (h : 8 * ops.length ≤ (cpu.reg .rsp - 1 - x).toNat) : (cpu.run (ops.map .push)).mem x = cpu.mem x := by
  induction ops generalizing cpu with
  | nil => rfl
  | cons op ops ih =>
    rw [List.length_cons] at h
    have hrest : 8 * ops.length ≤ ((cpu.push (cpu.operand op)).reg .rsp - 1 - x).toNat := by
      rw [rsp_push]
      bv_omega
    have hpush : cpu.mem.pushAll (cpu.reg .rsp) [cpu.operand op] x = cpu.mem x :=
      Memory.pushAll_apply (by rw [List.length_singleton]; omega)
    exact (ih hrest).trans hpush

/-- A sequence of loads relative to a register that they keep. -/
def loads (base : Reg) (l : List (Reg × BitVec 64)) : List Instr := l.map fun p => .load p.1 ⟨base, p.2⟩

section Loads

variable {base r : Reg} {d : BitVec 64} {l : List (Reg × BitVec 64)}

/-- The loaded registers have the words of the memory, everything else stays. -/
theorem run_loads (hbase : ∀ p ∈ l, p.1 ≠ base) (hnd : (l.map Prod.fst).Nodup) :
    ∃ gpr, cpu.run (loads base l) = { cpu with regs := { cpu.regs with gpr } } ∧
      (∀ r, (∀ p ∈ l, p.1 ≠ r) → gpr r = cpu.reg r) ∧
      ∀ p ∈ l, gpr p.1 = cpu.mem.load (cpu.reg base + p.2) := by
  induction l generalizing cpu with
  | nil => exact ⟨cpu.regs.gpr, rfl, fun _ _ => rfl, fun _ hp => absurd hp List.not_mem_nil⟩
  | cons p l ih =>
    obtain ⟨hp, hnd⟩ := List.nodup_cons.mp hnd
    let v := cpu.mem.load (cpu.reg base + p.2)
    obtain ⟨gpr, hrun, hother, hloaded⟩ := @ih (cpu.setReg p.1 v)
      (fun q hq => hbase q (List.mem_cons_of_mem _ hq)) hnd
    have hkeep : (cpu.setReg p.1 v).reg base = cpu.reg base :=
      reg_setReg_of_ne (hbase p List.mem_cons_self).symm v
    refine ⟨gpr, hrun, fun r hr => ?_, fun q hq => ?_⟩
    · rw [hother r fun q hq => hr q (List.mem_cons_of_mem _ hq)]
      exact reg_setReg_of_ne (hr p List.mem_cons_self).symm v
    · rcases List.mem_cons.mp hq with rfl | hq
      · rw [hother _ fun q' hq' heq => hp (List.mem_map.mpr ⟨q', hq', heq⟩)]
        exact reg_setReg v
      · rw [hloaded q hq, hkeep]
        rfl

end Loads

/-- A sequence of stores of registers in a record. -/
def stores {ι : Type*} (index : ι → Nat) (base : Reg) (l : List (ι × Reg)) : List Instr :=
  l.map fun p => .store ⟨base, BitVec.ofNat 64 (8 * index p.1)⟩ p.2

theorem run_stores {ι : Type*} {index : ι → Nat} {base : Reg} {l : List (ι × Reg)} :
    cpu.run (stores index base l) = { cpu with
      mem := Memory.storeAll index cpu.mem (cpu.reg base) (l.map fun p => (p.1, cpu.reg p.2)) } := by
  induction l generalizing cpu with
  | nil => rfl
  | cons p l ih => exact ih

end Core

end X86
