import MikanOS.Library.X86

/-! # Calls, returns and the ways between the rings

The instructions of code that calls and returns. A compiled function may do what the calling convention
allows: it gives back some registers, and the memory of its callers that it has no pointer to. -/

namespace X86

theorem Memory.ClearOf.le_sub {sp a x : BitVec 64} {n k : Nat} (h : Memory.ClearOf sp n a k)
    (hx : (sp - 1 - x).toNat < n) : k ≤ (x - a).toNat := by
  by_contra hlt
  have hclear := h (x - a).toNat (Nat.not_le.mp hlt)
  rw [BitVec.ofNat_toNat, BitVec.setWidth_eq, BitVec.add_comm, BitVec.sub_add_cancel] at hclear
  exact absurd hx (Nat.not_lt.mpr hclear)

/-- Beside those of straight-line code: the other half of the stack instructions, and arithmetic. -/
inductive CallInstr where
  | plain (i : Instr)
  | pop (dst : Reg)
  | mov32 (dst src : Reg)
  | and (dst : Reg) (imm : BitVec 64)
  | and32 (dst : Reg) (imm : BitVec 32)
  | add (dst : Reg) (imm : BitVec 64)
  | cli
  | sti
  | ret
  | retf

/-- The even parity of the lowest byte. -/
def evenParity (v : BitVec 64) : Bool := (List.range 8).countP v.getLsbD % 2 = 0

/-- The status flags of a bitwise operation, which leaves AF undefined. -/
def logicFlags (rflags v : BitVec 64) (sign : Bool) : BitVec 64 :=
  let flag (i : Nat) (b : Bool) : BitVec 64 := (BitVec.ofBool b).setWidth 64 <<< i
  rflags &&& ~~~0x8c5 ||| flag 2 (evenParity v) ||| flag 6 (v == 0) ||| flag 7 sign

/-- The status flags of a sum. -/
def addFlags (rflags a b : BitVec 64) : BitVec 64 :=
  let flag (i : Nat) (v : Bool) : BitVec 64 := (BitVec.ofBool v).setWidth 64 <<< i
  rflags &&& ~~~0x8d5 ||| flag 0 ((a + b).ult a) ||| flag 2 (evenParity (a + b)) |||
    flag 4 (((a + b).setWidth 4).ult (a.setWidth 4)) ||| flag 6 (a + b == 0) ||| flag 7 (a + b).msb |||
    flag 11 (a.msb == b.msb && (a + b).msb != a.msb)

/-- The registers that a function gives back as they were. -/
def calleeSaved : Reg → Bool
  | .rbx | .rbp | .rsp | .r12 | .r13 | .r14 | .r15 => true
  | _ => false

namespace Core

variable (cpu : Core)

def setRflags (v : BitVec 64) : Core := { cpu with regs := { cpu.regs with rflags := v } }

def pop (dst : Reg) : Core := (cpu.setReg .rsp (cpu.reg .rsp + 8)).setReg dst (cpu.mem.load (cpu.reg .rsp))

/-- A far return. To an outer ring it takes the stack along. -/
def farReturn : Core :=
  let sp := cpu.reg .rsp
  let cs := (cpu.mem.load (sp + 8)).setWidth 16
  let cpu' := { cpu.setReg .rsp (sp + 16) with regs.rip := cpu.mem.load sp }.setSeg .cs cs
  if cs &&& 3 = cpu.regs.seg .cs &&& 3 then cpu'
  else (cpu'.setReg .rsp (cpu.mem.load (sp + 16))).setSeg .ss ((cpu.mem.load (sp + 24)).setWidth 16)

def execCall : CallInstr → Core
  | .plain i => cpu.exec i
  | .pop dst => cpu.pop dst
  -- the upper half of the register is cleared
  | .mov32 dst src => cpu.setReg dst (((cpu.reg src).setWidth 32).setWidth 64)
  | .and dst imm =>
    let v := cpu.reg dst &&& imm
    (cpu.setReg dst v).setRflags (logicFlags cpu.regs.rflags v v.msb)
  | .and32 dst imm =>
    let v := (cpu.reg dst).setWidth 32 &&& imm
    (cpu.setReg dst (v.setWidth 64)).setRflags (logicFlags cpu.regs.rflags (v.setWidth 64) v.msb)
  | .add dst imm =>
    (cpu.setReg dst (cpu.reg dst + imm)).setRflags (addFlags cpu.regs.rflags (cpu.reg dst) imm)
  | .cli => cpu.setRflags (cpu.regs.rflags &&& ~~~0x200)
  | .sti => cpu.setRflags (cpu.regs.rflags ||| 0x200)
  | .ret => { cpu.setReg .rsp (cpu.reg .rsp + 8) with regs.rip := cpu.mem.load (cpu.reg .rsp) }
  | .retf => cpu.farReturn

def runCalls (is : List CallInstr) : Core := is.foldl execCall cpu

/-- A call of a function that follows the calling convention, up to its return. `out` is what it leaves
behind where it is free to. -/
def call (kept : BitVec 64 → Bool) (out : Core) : Core where
  regs := { out.regs with
    gpr := fun r => if calleeSaved r then cpu.reg r else out.reg r
    seg := cpu.regs.seg
    cr3 := cpu.regs.cr3 }
  mem := fun x => if kept x then cpu.mem x else out.mem x

/-- The `syscall` instruction, 2 bytes long, with the MSRs STAR, LSTAR and FMASK. -/
def syscall (star lstar fmask : BitVec 64) : Core :=
  let selector := star.extractLsb' 32 16
  { cpu with regs := { cpu.regs with
      gpr := Function.update (Function.update cpu.regs.gpr .rcx (cpu.regs.rip + 2)) .r11 cpu.regs.rflags
      rip := lstar
      rflags := cpu.regs.rflags &&& ~~~fmask
      seg := Function.update (Function.update cpu.regs.seg .cs (selector &&& 0xfffc)) .ss (selector + 8) } }

/-- `sysret` with a 64-bit operand. -/
def sysret (star : BitVec 64) : Core :=
  let selector := star.extractLsb' 48 16
  { cpu with regs := { cpu.regs with
      rip := cpu.reg .rcx
      rflags := cpu.reg .r11 &&& 0x3c7fd7 ||| 2
      seg := Function.update (Function.update cpu.regs.seg .cs (selector + 16 ||| 3)) .ss (selector + 8 ||| 3) } }

variable {cpu}

theorem runCalls_append (is is' : List CallInstr) : cpu.runCalls (is ++ is') = (cpu.runCalls is).runCalls is' :=
  List.foldl_append

theorem runCalls_plain (is : List Instr) : cpu.runCalls (is.map .plain) = cpu.run is := List.foldl_map

/-- A sequence of `push` instructions on registers. -/
theorem runCalls_push {rs : List Reg} (hsp : .rsp ∉ rs) :
    cpu.runCalls (rs.map fun r => .plain (.push (.reg r))) =
      { cpu.setReg .rsp (cpu.reg .rsp - BitVec.ofNat 64 (8 * rs.length)) with
        mem := cpu.mem.pushAll (cpu.reg .rsp) (rs.map cpu.reg) } := by
  have hstable : ∀ op ∈ rs.map Operand.reg, cpu.Stable (8 * (rs.map Operand.reg).length) op := by
    intro op hop
    obtain ⟨r, hr, rfl⟩ := List.mem_map.mp hop
    exact fun h => hsp (h ▸ hr)
  have hrun := run_push hstable
  rw [List.length_map, ← runCalls_plain, List.map_map, List.map_map, List.map_map] at hrun
  exact hrun

theorem rsp_ret : (cpu.execCall .ret).reg .rsp = cpu.reg .rsp + 8 := Function.update_self Reg.rsp _ cpu.regs.gpr

theorem reg_ret {r : Reg} (hr : r ≠ .rsp) : (cpu.execCall .ret).reg r = cpu.reg r := Function.update_of_ne hr ..

theorem reg_pop {r dst : Reg} (hr : r ≠ dst) (hsp : r ≠ .rsp) : (cpu.pop dst).reg r = cpu.reg r := by
  rw [pop, reg_setReg_of_ne hr, reg_setReg_of_ne hsp]

theorem rsp_pop {dst : Reg} (h : dst ≠ .rsp) : (cpu.pop dst).reg .rsp = cpu.reg .rsp + 8 := by
  rw [pop, reg_setReg_of_ne h.symm, reg_setReg]

theorem reg_add (dst : Reg) (imm : BitVec 64) : (cpu.execCall (.add dst imm)).reg dst = cpu.reg dst + imm :=
  Function.update_self dst _ cpu.regs.gpr

theorem reg_add_of_ne {r dst : Reg} (h : r ≠ dst) (imm : BitVec 64) :
    (cpu.execCall (.add dst imm)).reg r = cpu.reg r := Function.update_of_ne h _ cpu.regs.gpr

/-- A sequence of `pop` instructions: the registers have the words from the stack pointer up. -/
theorem runCalls_pop {rs : List Reg} (hsp : .rsp ∉ rs) (hnd : rs.Nodup) :
    ∃ gpr, cpu.runCalls (rs.map .pop) = { cpu with regs := { cpu.regs with gpr } } ∧
      gpr .rsp = cpu.reg .rsp + BitVec.ofNat 64 (8 * rs.length) ∧
      (∀ r, r ≠ .rsp → r ∉ rs → gpr r = cpu.reg r) ∧
      ∀ (i : Nat) (h : i < rs.length), gpr rs[i] = cpu.mem.load (cpu.reg .rsp + BitVec.ofNat 64 (8 * i)) := by
  induction rs generalizing cpu with
  | nil =>
    exact ⟨cpu.regs.gpr, rfl, (BitVec.add_zero _).symm, fun _ _ _ => rfl, fun _ h => absurd h (Nat.not_lt_zero _)⟩
  | cons dst rs ih =>
    obtain ⟨hdst, hsp⟩ := List.ne_and_not_mem_of_not_mem_cons hsp
    obtain ⟨hmem, hnd⟩ := List.nodup_cons.mp hnd
    obtain ⟨gpr, hrun, hrsp, hother, hloaded⟩ := @ih (cpu.pop dst) hsp hnd
    rw [rsp_pop hdst.symm] at hrsp hloaded
    refine ⟨gpr, hrun, ?_, fun r hr hrs => ?_, fun i h => ?_⟩
    · rw [hrsp, List.length_cons]
      bv_omega
    · obtain ⟨hne, hrs⟩ := List.ne_and_not_mem_of_not_mem_cons hrs
      rw [hother r hr hrs, reg_pop hne hr]
    · cases i with
      | zero =>
        rw [List.getElem_cons_zero, hother dst hdst.symm hmem, pop, reg_setReg]
        simp
      | succ i =>
        rw [List.getElem_cons_succ, hloaded i (by simpa using h)]
        have haddr : cpu.reg .rsp + 8 + BitVec.ofNat 64 (8 * i) = cpu.reg .rsp + BitVec.ofNat 64 (8 * (i + 1)) := by
          bv_omega
        rw [haddr]
        rfl

end Core

/-! ## Aligned addresses -/

theorem and_not_add_and {w : Nat} (x y : BitVec w) : (x &&& ~~~y) + (x &&& y) = x := by
  rw [BitVec.add_eq_or_of_and_eq_zero]
  · ext i hi
    cases hx : x[i] <;> cases hy : y[i] <;> simp [hx, hy]
  · ext i hi
    cases hx : x[i] <;> cases hy : y[i] <;> simp [hx, hy]

theorem toNat_align (x : BitVec 64) : (x &&& ~~~(0xf : BitVec 64)).toNat = x.toNat - x.toNat % 16 := by
  have hsplit := and_not_add_and x 0xf
  have hlow : (x &&& 0xf).toNat = x.toNat % 16 := by
    rw [BitVec.toNat_and]
    exact Nat.and_two_pow_sub_one_eq_mod x.toNat 4
  generalize x &&& ~~~(0xf : BitVec 64) = a at *
  generalize x &&& (0xf : BitVec 64) = b at *
  subst hsplit
  bv_omega

end X86
