import MikanOS.Library.X86

/-! # Saving and restoring the registers of a task

The assembly routines `SwitchContext`, `RestoreContext` and `IntHandlerLAPICTimer`, on the memory of a
`TaskContext`. The routines use explicit displacements, the structure has its fields one behind the other. -/

namespace MikanOS

open X86 X86.Memory

namespace TaskContext

/-- The fields of 8 bytes of `TaskContext`, in the order of their declaration. -/
inductive Field where
  | cr3 | rip | rflags | reserved1
  | cs | ss | fs | gs
  | rax | rbx | rcx | rdx | rdi | rsi | rsp | rbp
  | r8 | r9 | r10 | r11 | r12 | r13 | r14 | r15
  deriving DecidableEq, Repr

/-- The number of fields in front of a field. -/
def index (f : Field) : Nat := f.ctorIdx

def offset (f : Field) : BitVec 64 := BitVec.ofNat 64 (8 * index f)

/-- The offset of `fxsave_area`. -/
def fxsaveOffset : BitVec 64 := BitVec.ofNat 64 (8 * 24)

/-- `sizeof(TaskContext)`. -/
def size : Nat := 8 * 24 + 512

def ofReg : Reg → Field
  | .rax => .rax | .rcx => .rcx | .rdx => .rdx | .rbx => .rbx
  | .rsp => .rsp | .rbp => .rbp | .rsi => .rsi | .rdi => .rdi
  | .r8 => .r8 | .r9 => .r9 | .r10 => .r10 | .r11 => .r11
  | .r12 => .r12 | .r13 => .r13 | .r14 => .r14 | .r15 => .r15

def ofSeg : Seg → Field
  | .cs => .cs | .ss => .ss | .fs => .fs | .gs => .gs

theorem index_lt (f : Field) : index f < 24 := by cases f <;> decide

theorem index_lt' (f : Field) : index f < 2 ^ 32 := (index_lt f).trans (by decide)

/-- The context at `ctx` holds the registers. Of a segment register only the low 16 bits count. -/
structure Holds (m : X86.Memory) (ctx : BitVec 64) (regs : Regs) : Prop where
  gpr : ∀ r, m.load (ctx + offset (ofReg r)) = regs.gpr r
  rip : m.load (ctx + offset .rip) = regs.rip
  rflags : m.load (ctx + offset .rflags) = regs.rflags
  seg : ∀ s, (m.load (ctx + offset (ofSeg s))).setWidth 16 = regs.seg s
  cr3 : m.load (ctx + offset .cr3) = regs.cr3
  fpu : ∀ i : Fin 512, m (ctx + fxsaveOffset + BitVec.ofNat 64 i) = regs.fpu i

variable {m m' : X86.Memory} {ctx : BitVec 64} {regs : Regs}

/-- The same bytes, also at another address. -/
theorem Holds.of_bytes {ctx' : BitVec 64} (h : Holds m ctx regs)
    (hm : ∀ i < size, m (ctx + BitVec.ofNat 64 i) = m' (ctx' + BitVec.ofNat 64 i)) : Holds m' ctx' regs := by
  have hbyte : ∀ d i, d + i < size → m' (ctx' + BitVec.ofNat 64 d + BitVec.ofNat 64 i) =
      m (ctx + BitVec.ofNat 64 d + BitVec.ofNat 64 i) := by
    intro d i hi
    rw [BitVec.add_assoc, BitVec.add_assoc, ← BitVec.ofNat_add]
    exact (hm _ hi).symm
  have hword : ∀ f, m'.load (ctx' + offset f) = m.load (ctx + offset f) := fun f =>
    load_congr_bytes fun i hi => hbyte _ _ (by have := index_lt f; simp only [size]; omega)
  exact {
    gpr := fun r => (hword _).trans (h.gpr r)
    rip := (hword _).trans h.rip
    rflags := (hword _).trans h.rflags
    seg := fun s => (congrArg _ (hword _)).trans (h.seg s)
    cr3 := (hword _).trans h.cr3
    fpu := fun i => (hbyte _ _ (by have := i.isLt; simp only [size]; omega)).trans (h.fpu i) }

theorem Holds.congr (h : Holds m ctx regs) (hm : AgreeOn m m' ctx size) : Holds m' ctx regs := h.of_bytes hm

/-- `memcpy` of the structure. -/
theorem Holds.copy {dst : BitVec 64} (h : Holds m ctx regs) : Holds (m.copy dst ctx size) dst regs :=
  h.of_bytes fun _ hi => (copy_apply (by decide) hi).symm

end TaskContext

open TaskContext

/-- `SwitchContext` from CR3 on, in front of `RestoreContext`. -/
def saveSys : List Instr :=
  [ .movFromCr3 .rax, .store ⟨.rsi, 0x00⟩ .rax,
    .load .rax ⟨.rsp, 0⟩, .store ⟨.rsi, 0x08⟩ .rax,
    .pushfq, .popMem ⟨.rsi, 0x10⟩,
    .movFromSeg .rax .cs, .store ⟨.rsi, 0x20⟩ .rax, .movFromSeg .rbx .ss, .store ⟨.rsi, 0x28⟩ .rbx,
    .movFromSeg .rcx .fs, .store ⟨.rsi, 0x30⟩ .rcx, .movFromSeg .rdx .gs, .store ⟨.rsi, 0x38⟩ .rdx,
    .fxsave ⟨.rsi, 0xc0⟩ ]

/-- `SwitchContext` in front of `RestoreContext`. -/
def saveContext : List Instr :=
  [ .store ⟨.rsi, 0x40⟩ .rax, .store ⟨.rsi, 0x48⟩ .rbx, .store ⟨.rsi, 0x50⟩ .rcx, .store ⟨.rsi, 0x58⟩ .rdx,
    .store ⟨.rsi, 0x60⟩ .rdi, .store ⟨.rsi, 0x68⟩ .rsi,
    .lea .rax ⟨.rsp, 8⟩,
    .store ⟨.rsi, 0x70⟩ .rax, .store ⟨.rsi, 0x78⟩ .rbp,
    .store ⟨.rsi, 0x80⟩ .r8, .store ⟨.rsi, 0x88⟩ .r9, .store ⟨.rsi, 0x90⟩ .r10, .store ⟨.rsi, 0x98⟩ .r11,
    .store ⟨.rsi, 0xa0⟩ .r12, .store ⟨.rsi, 0xa8⟩ .r13, .store ⟨.rsi, 0xb0⟩ .r14, .store ⟨.rsi, 0xb8⟩ .r15 ] ++
  saveSys

/-- The frame for `iret` of `RestoreContext`. -/
def restoreFrame : List Operand :=
  [.mem ⟨.rdi, 0x28⟩, .mem ⟨.rdi, 0x70⟩, .mem ⟨.rdi, 0x10⟩, .mem ⟨.rdi, 0x20⟩, .mem ⟨.rdi, 0x08⟩]

/-- The registers that `RestoreContext` loads before RDI, with the displacements. -/
def restoreRegs : List (Reg × BitVec 64) :=
  [ (.rax, 0x40), (.rbx, 0x48), (.rcx, 0x50), (.rdx, 0x58), (.rsi, 0x68), (.rbp, 0x78),
    (.r8, 0x80), (.r9, 0x88), (.r10, 0x90), (.r11, 0x98), (.r12, 0xa0), (.r13, 0xa8), (.r14, 0xb0),
    (.r15, 0xb8) ]

/-- What it does in front of that. -/
def restoreSys : List Instr :=
  [ .fxrstor ⟨.rdi, 0xc0⟩, .load .rax ⟨.rdi, 0x00⟩, .movToCr3 .rax,
    .load .rax ⟨.rdi, 0x30⟩, .movToSeg .fs .rax, .load .rax ⟨.rdi, 0x38⟩, .movToSeg .gs .rax ]

/-- `RestoreContext`. -/
def restoreContext : List Instr :=
  restoreFrame.map .push ++ restoreSys ++ Core.loads .rdi restoreRegs ++ [.load .rdi ⟨.rdi, 0x60⟩, .iretq]

/-- `SwitchContext`. -/
def switchContext : List Instr := saveContext ++ restoreContext

/-- What `IntHandlerLAPICTimer` pushes behind `fxsave`, from R15 to RAX. -/
def handlerFrameRegs : List Operand :=
  [ .reg .r15, .reg .r14, .reg .r13, .reg .r12, .reg .r11, .reg .r10, .reg .r9, .reg .r8,
    .mem ⟨.rbp, 0⟩, .mem ⟨.rbp, 0x20⟩,
    .reg .rsi, .reg .rdi, .reg .rdx, .reg .rcx, .reg .rbx, .reg .rax ]

/-- What it pushes behind that, from GS to CR3. -/
def handlerFrameSys : List Operand :=
  [ .reg .rbx, .reg .rax, .mem ⟨.rbp, 0x28⟩, .mem ⟨.rbp, 0x10⟩, .reg .rbp, .mem ⟨.rbp, 0x18⟩,
    .mem ⟨.rbp, 0x08⟩, .reg .rcx ]

/-- The first instructions of the handler. -/
def handlerEntry : List Instr := [.push (.reg .rbp), .mov .rbp .rsp, .sub .rsp 512, .fxsave ⟨.rsp, 0⟩]

/-- The segment registers and CR3 go through RAX, RBX and RCX. -/
def handlerMoves : List Instr := [.movFromSeg .rax .fs, .movFromSeg .rbx .gs, .movFromCr3 .rcx]

/-- `IntHandlerLAPICTimer` up to the call of `LAPICTimerOnInterrupt`. -/
def intHandlerLAPICTimer : List Instr :=
  handlerEntry ++ handlerFrameRegs.map .push ++ handlerMoves ++ handlerFrameSys.map .push ++ [.mov .rdi .rsp]

/-- Whenever and wherever `RestoreContext` is called with the context at `ctx`, its bytes being those of `m`
and the stack in use apart from it, the registers are `regs`. -/
def Resumes (m : X86.Memory) (ctx : BitVec 64) (regs : Regs) : Prop :=
  ∀ cpu : Core, cpu.reg .rdi = ctx → AgreeOn m cpu.mem ctx size → ClearOf (cpu.reg .rsp) 40 ctx size →
    (cpu.run restoreContext).regs = regs

/-! ## Restoring -/

section Restore

variable {cpu : Core} {regs : Regs}

theorem stable_restoreFrame (hclear : ClearOf (cpu.reg .rsp) 40 (cpu.reg .rdi) size) :
    ∀ op ∈ restoreFrame, cpu.Stable (8 * restoreFrame.length) op := by
  have hfield : ∀ f : Field, cpu.Stable 40 (.mem ⟨.rdi, offset f⟩) := fun f =>
    ⟨show Reg.rdi ≠ Reg.rsp by decide, hclear.mono le_rfl (by have := index_lt f; simp only [size]; omega)⟩
  simp only [restoreFrame, List.forall_mem_cons, List.not_mem_nil, false_implies, implies_true, and_true]
  exact ⟨hfield .ss, hfield .rsp, hfield .rflags, hfield .cs, hfield .rip⟩

theorem mem_restoreRegs (r : Reg) (hsp : r ≠ .rsp) (hdi : r ≠ .rdi) :
    (r, offset (ofReg r)) ∈ restoreRegs := by
  cases r with
  | rsp => exact absurd rfl hsp
  | rdi => exact absurd rfl hdi
  | _ => decide

/-- Everything but what `iretq` takes from the stack comes from the context. -/
theorem run_restoreRegs (h : Holds cpu.mem (cpu.reg .rdi) regs) :
    (cpu.run (restoreSys ++ Core.loads .rdi restoreRegs ++ [.load .rdi ⟨.rdi, 0x60⟩, .iretq])).regs =
      { gpr := Function.update regs.gpr .rsp (cpu.mem.load (cpu.reg .rsp + 24))
        rip := cpu.mem.load (cpu.reg .rsp)
        rflags := cpu.mem.load (cpu.reg .rsp + 16)
        seg := Function.update (Function.update regs.seg .cs ((cpu.mem.load (cpu.reg .rsp + 8)).setWidth 16))
          .ss ((cpu.mem.load (cpu.reg .rsp + 32)).setWidth 16)
        cr3 := regs.cr3
        fpu := regs.fpu } := by
  rw [Core.run_append, Core.run_append]
  obtain ⟨gpr, hrun, hother, hloaded⟩ :=
    @Core.run_loads (cpu.run restoreSys) .rdi restoreRegs (by decide) (by decide)
  have hsp : gpr .rsp = cpu.reg .rsp := hother .rsp (by decide)
  have hdi : gpr .rdi = cpu.reg .rdi := hother .rdi (by decide)
  have hrest : ∀ r, r ≠ .rsp → r ≠ .rdi → gpr r = regs.gpr r := fun r hr hr' =>
    (hloaded _ (mem_restoreRegs r hr hr')).trans (h.gpr r)
  have hcr3 : (cpu.run restoreSys).regs.cr3 = regs.cr3 := h.cr3
  have hfpu : (cpu.run restoreSys).regs.fpu = regs.fpu := funext h.fpu
  have hfs : (cpu.run restoreSys).regs.seg .fs = regs.seg .fs := h.seg .fs
  have hgs : (cpu.run restoreSys).regs.seg .gs = regs.seg .gs := h.seg .gs
  have hmem : (cpu.run restoreSys).mem = cpu.mem := rfl
  have hlast : cpu.mem.load (cpu.reg .rdi + 0x60) = regs.gpr .rdi := h.gpr .rdi
  rw [hrun]
  generalize cpu.run restoreSys = cpu' at *
  have hne : Reg.rsp ≠ Reg.rdi := by decide
  have hgpr : ∀ sp, Function.update (Function.update gpr .rdi (regs.gpr .rdi)) .rsp sp =
      Function.update regs.gpr .rsp sp := by
    refine fun sp => funext fun r => ?_
    by_cases hr : r = .rsp
    · rw [hr, Function.update_self, Function.update_self]
    · rw [Function.update_of_ne hr, Function.update_of_ne hr]
      by_cases hr' : r = .rdi
      · rw [hr', Function.update_self]
      · rw [Function.update_of_ne hr', hrest r hr hr']
  have hseg : ∀ cs ss, Function.update (Function.update cpu'.regs.seg .cs cs) .ss ss =
      Function.update (Function.update regs.seg .cs cs) .ss ss := by
    refine fun cs ss => funext fun s => ?_
    cases s with
    | cs | ss => rfl
    | fs => exact hfs
    | gs => exact hgs
  rw [← hgpr, ← hseg, ← hcr3, ← hfpu, ← hlast]
  simp only [Core.run, List.foldl_cons, List.foldl_nil, Core.exec, Core.setReg, Core.addr, hmem, Core.reg, hdi,
    Function.update_of_ne hne, hsp]

/-- The frame is taken back from the stack, in the order of `iretq`. -/
theorem run_restoreContext (h : Holds cpu.mem (cpu.reg .rdi) regs)
    (hclear : ClearOf (cpu.reg .rsp) 40 (cpu.reg .rdi) size) : (cpu.run restoreContext).regs = regs := by
  rw [restoreContext, List.append_assoc, List.append_assoc, Core.run_append, ← List.append_assoc,
    Core.run_push (stable_restoreFrame hclear)]
  have hm : AgreeOn cpu.mem (cpu.mem.pushAll (cpu.reg .rsp) (restoreFrame.map cpu.operand))
      (cpu.reg .rdi) size := fun i hi => (agreeOn_pushAll hclear i hi).symm
  have hframe : ∀ k < 5, (cpu.mem.pushAll (cpu.reg .rsp) (restoreFrame.map cpu.operand)).load
      (cpu.reg .rsp - 40 + BitVec.ofNat 64 (8 * k)) = (restoreFrame.map cpu.operand).getD (4 - k) 0 := by
    intro k hk
    have hlen : (restoreFrame.map cpu.operand).length = 5 := rfl
    rw [List.getD_eq_getElem _ _ (by omega)]
    exact load_pushAll_base (hk.trans_eq hlen.symm) (by rw [hlen]; decide)
  have hrip := (hframe 0 (by decide)).trans h.rip
  have hcs := (congrArg (BitVec.setWidth 16) (hframe 1 (by decide))).trans (h.seg .cs)
  have hrflags := (hframe 2 (by decide)).trans h.rflags
  have hrsp := (hframe 3 (by decide)).trans (h.gpr .rsp)
  have hss := (congrArg (BitVec.setWidth 16) (hframe 4 (by decide))).trans (h.seg .ss)
  generalize cpu.mem.pushAll (cpu.reg .rsp) (restoreFrame.map cpu.operand) = m at *
  let cpu' : Core := { cpu.setReg .rsp (cpu.reg .rsp - 40) with mem := m }
  have hsp : cpu'.reg .rsp = cpu.reg .rsp - 40 := @Core.reg_setReg cpu _ _
  have hdi : cpu'.reg .rdi = cpu.reg .rdi := @Core.reg_setReg_of_ne cpu _ _ (by decide) _
  have hctx : Holds cpu'.mem (cpu'.reg .rdi) regs := by
    rw [hdi]
    exact h.congr hm
  refine (run_restoreRegs hctx).trans ?_
  rw [BitVec.add_zero] at hrip
  rw [hsp]
  refine Regs.ext ?_ hrip hrflags ?_ rfl rfl
  · exact (congrArg _ hrsp).trans (Function.update_eq_self _ _)
  · refine funext fun s => ?_
    cases s with
    | cs => exact hcs
    | ss => exact hss
    | fs | gs => rfl

theorem TaskContext.Holds.resumes {m : X86.Memory} {ctx : BitVec 64} (h : Holds m ctx regs) :
    Resumes m ctx regs := by
  rintro cpu rfl hm hclear
  exact run_restoreContext (h.congr hm) hclear

/-- The context of another task is not written. -/
theorem agreeOn_restoreContext {a : BitVec 64} {k : Nat} (hclear : ClearOf (cpu.reg .rsp) 40 a k) :
    AgreeOn (cpu.run restoreContext).mem cpu.mem a k := by
  have hrest : ∀ c : Core, (c.run (restoreSys ++ Core.loads .rdi restoreRegs ++
      [.load .rdi ⟨.rdi, 0x60⟩, .iretq])).mem = c.mem := by
    intro c
    obtain ⟨gpr, hrun, -, -⟩ := @Core.run_loads (c.run restoreSys) .rdi restoreRegs (by decide) (by decide)
    rw [Core.run_append, Core.run_append, hrun]
    rfl
  rw [restoreContext, List.append_assoc, List.append_assoc, Core.run_append, ← List.append_assoc, hrest]
  exact fun i hi => Core.mem_run_push (hclear i hi)

end Restore

/-! ## `SwitchContext` -/

section Save

variable {cpu : Core}

/-- What `SwitchContext` stores before RAX is used for RSP. -/
def saveRegs : List (Field × Reg) :=
  [(.rax, .rax), (.rbx, .rbx), (.rcx, .rcx), (.rdx, .rdx), (.rdi, .rdi), (.rsi, .rsi)]

/-- What it stores while RAX holds the stack pointer. -/
def saveRegsRsp : List (Field × Reg) :=
  [(.rsp, .rax), (.rbp, .rbp), (.r8, .r8), (.r9, .r9), (.r10, .r10), (.r11, .r11), (.r12, .r12), (.r13, .r13),
    (.r14, .r14), (.r15, .r15)]

/-- The displacements are the offsets of the fields. -/
theorem saveContext_eq : saveContext = Core.stores index .rsi saveRegs ++ [.lea .rax ⟨.rsp, 8⟩] ++
    Core.stores index .rsi saveRegsRsp ++ saveSys := rfl

/-- A 16-bit move into a register. -/
def low16 (v : BitVec 64) (s : BitVec 16) : BitVec 64 := v &&& ~~~0xffff ||| s.setWidth 64

theorem mem_saveSys : (cpu.run saveSys).mem =
    let m := storeAll index cpu.mem (cpu.reg .rsi) [(.cr3, cpu.regs.cr3)]
    let ret := m.load (cpu.reg .rsp + 0)
    let m := (storeAll index m (cpu.reg .rsi) [(.rip, ret)]).store (cpu.reg .rsp - 8) cpu.regs.rflags
    let m := storeAll index m (cpu.reg .rsi)
      [(.rflags, m.load (cpu.reg .rsp - 8)), (.cs, low16 ret (cpu.regs.seg .cs)),
        (.ss, low16 (cpu.reg .rbx) (cpu.regs.seg .ss)), (.fs, low16 (cpu.reg .rcx) (cpu.regs.seg .fs)),
        (.gs, low16 (cpu.reg .rdx) (cpu.regs.seg .gs))]
    m.write (cpu.reg .rsi + fxsaveOffset) cpu.regs.fpu := by
  have hcr3 : index .cr3 = 0 := rfl
  have hrip : index .rip = 1 := rfl
  have hrflags : index .rflags = 2 := rfl
  have hcs : index .cs = 4 := rfl
  have hss : index .ss = 5 := rfl
  have hfs : index .fs = 6 := rfl
  have hgs : index .gs = 7 := rfl
  simp [saveSys, Core.run, Core.exec, Core.push, Core.setReg, Core.reg, Core.addr, storeAll, low16,
    fxsaveOffset, hcr3, hrip, hrflags, hcs, hss, hfs, hgs]

/-- The words that are stored with RAX as it was, and then with the stack pointer in it. -/
def gprWords (cpu : Core) : List (Field × BitVec 64) :=
  saveRegs.map (fun p => (p.1, cpu.reg p.2)) ++
    saveRegsRsp.map fun p => (p.1, (cpu.setReg .rax (cpu.reg .rsp + 8)).reg p.2)

theorem run_saveRegs : cpu.run (Core.stores index .rsi saveRegs ++ [.lea .rax ⟨.rsp, 8⟩] ++
      Core.stores index .rsi saveRegsRsp) =
    { cpu.setReg .rax (cpu.reg .rsp + 8) with
      mem := storeAll index cpu.mem (cpu.reg .rsi) (gprWords cpu) } := by
  rw [Core.run_append, Core.run_append, Core.run_stores, Core.run_stores, gprWords, storeAll_append]
  rfl

theorem mem_gprWords (r : Reg) :
    (ofReg r, Function.update cpu.regs.gpr .rsp (cpu.reg .rsp + 8) r) ∈ gprWords cpu := by
  cases r <;> simp [gprWords, saveRegs, saveRegsRsp, ofReg, Core.reg, Core.setReg]

theorem index_injective : Function.Injective index := Function.LeftInverse.injective Field.ofNat_ctorIdx

/-- Each field keeps the word that is stored in it, also while the stack is used in between. -/
theorem load_saved {m : X86.Memory} {sp ctx w v : BitVec 64} {early late : List (Field × BitVec 64)}
    {f : Field} {fpu : Fin 512 → BitVec 8} (hclear : ClearOf sp 8 ctx size)
    (hnd : ((early ++ late).map Prod.fst).Nodup) (hf : (f, v) ∈ early ++ late) :
    ((storeAll index ((storeAll index m ctx early).store (sp - 8) w) ctx late).write
      (ctx + fxsaveOffset) fpu).load (ctx + offset f) = v := by
  have hnd' : ((early ++ late).map fun p => index p.1).Nodup := by
    rw [← Function.comp_def, ← List.map_map]
    exact hnd.map index_injective
  rw [List.map_append, List.nodup_append'] at hnd'
  have hfx : AgreeOn ((storeAll index ((storeAll index m ctx early).store (sp - 8) w) ctx late).write
      (ctx + fxsaveOffset) fpu) (storeAll index ((storeAll index m ctx early).store (sp - 8) w) ctx late)
      (ctx + offset f) 8 := by
    intro i hi
    refine write_of_le ?_
    have := index_lt f
    rw [offset, fxsaveOffset]
    bv_omega
  rw [load_congr hfx]
  obtain ⟨hearly, hlate, hdisj⟩ := hnd'
  rcases List.mem_append.mp hf with hf | hf
  · have hne : ∀ p ∈ late, index p.1 ≠ index f := fun p hp heq =>
      hdisj (List.mem_map.mpr ⟨_, hf, rfl⟩) (List.mem_map.mpr ⟨p, hp, heq⟩)
    have hbelow : ClearOf sp 8 (ctx + offset f) 8 :=
      hclear.mono le_rfl (by have := index_lt f; simp only [size]; omega)
    calc _ = ((storeAll index m ctx early).store (sp - 8) w).load (ctx + offset f) :=
          load_storeAll_of_ne index_lt' hne
      _ = (storeAll index m ctx early).load (ctx + offset f) :=
          load_congr (show AgreeOn (pushAll _ sp [w]) _ _ 8 from agreeOn_pushAll hbelow)
      _ = v := load_storeAll index_lt' hearly hf
  · exact load_storeAll index_lt' hlate hf

/-- The registers that a task has behind the call of `SwitchContext`. -/
def returned (cpu : Core) : Regs :=
  { cpu.regs with
    gpr := Function.update cpu.regs.gpr .rsp (cpu.reg .rsp + 8)
    rip := cpu.mem.load (cpu.reg .rsp) }

theorem setWidth_low16 (v : BitVec 64) (s : BitVec 16) : (low16 v s).setWidth 16 = s := by
  ext i hi
  simp [low16]

/-- The words in the order of the stores, before and after the flags go through the stack. -/
def earlyWords (cpu : Core) : List (Field × BitVec 64) :=
  gprWords cpu ++ [(.cr3, cpu.regs.cr3), (.rip, cpu.mem.load (cpu.reg .rsp))]

def lateWords (cpu : Core) : List (Field × BitVec 64) :=
  [(.rflags, cpu.regs.rflags), (.cs, low16 (cpu.mem.load (cpu.reg .rsp)) (cpu.regs.seg .cs)),
    (.ss, low16 (cpu.reg .rbx) (cpu.regs.seg .ss)), (.fs, low16 (cpu.reg .rcx) (cpu.regs.seg .fs)),
    (.gs, low16 (cpu.reg .rdx) (cpu.regs.seg .gs))]

/-- The return address stays while the context is written. -/
theorem load_return {l : List (Field × BitVec 64)}
    (hclear : ClearOf (cpu.reg .rsp + 8) 16 (cpu.reg .rsi) size) :
    (storeAll index cpu.mem (cpu.reg .rsi) l).load (cpu.reg .rsp) = cpu.mem.load (cpu.reg .rsp) := by
  refine load_congr fun j hj => storeAll_apply index_lt fun i hi heq => ?_
  have hout := hclear i (by simp only [size]; omega)
  rw [← heq] at hout
  bv_omega

theorem mem_saveContext (hclear : ClearOf (cpu.reg .rsp + 8) 16 (cpu.reg .rsi) size) :
    (cpu.run saveContext).mem =
      (storeAll index ((storeAll index cpu.mem (cpu.reg .rsi) (earlyWords cpu)).store (cpu.reg .rsp - 8)
        cpu.regs.rflags) (cpu.reg .rsi) (lateWords cpu)).write
          (cpu.reg .rsi + fxsaveOffset) cpu.regs.fpu := by
  rw [saveContext_eq, Core.run_append, run_saveRegs, mem_saveSys]
  obtain ⟨c, hc⟩ : ∃ c : Core, c = { cpu.setReg .rax (cpu.reg .rsp + 8) with
    mem := storeAll index cpu.mem (cpu.reg .rsi) (gprWords cpu) } := ⟨_, rfl⟩
  have hreg : ∀ r, r ≠ .rax → c.reg r = cpu.reg r := fun r hr => by
    rw [hc]
    exact Core.reg_setReg_of_ne hr _
  have hmem : c.mem = storeAll index cpu.mem (cpu.reg .rsi) (gprWords cpu) := by rw [hc]
  have hcr3 : c.regs.cr3 = cpu.regs.cr3 := by rw [hc]; rfl
  have hrflags : c.regs.rflags = cpu.regs.rflags := by rw [hc]; rfl
  have hseg : c.regs.seg = cpu.regs.seg := by rw [hc]; rfl
  have hfpu : c.regs.fpu = cpu.regs.fpu := by rw [hc]; rfl
  have hret : (storeAll index c.mem (cpu.reg .rsi) [(.cr3, cpu.regs.cr3)]).load (cpu.reg .rsp + 0) =
      cpu.mem.load (cpu.reg .rsp) := by
    rw [add_zero, hmem, ← storeAll_append]
    exact load_return hclear
  rw [← hc]
  simp only [hreg .rsi (by decide), hreg .rsp (by decide), hreg .rbx (by decide), hreg .rcx (by decide),
    hreg .rdx (by decide), hcr3, hrflags, hseg, hfpu, hret, load_store]
  rw [hmem, ← storeAll_append, ← storeAll_append]
  rfl

theorem holds_saveContext (hclear : ClearOf (cpu.reg .rsp + 8) 16 (cpu.reg .rsi) size) :
    Holds (cpu.run saveContext).mem (cpu.reg .rsi) (returned cpu) := by
  have hbelow : ClearOf (cpu.reg .rsp) 8 (cpu.reg .rsi) size := fun i hi => by
    have := hclear i hi
    bv_omega
  have hload : ∀ f v, (f, v) ∈ earlyWords cpu ++ lateWords cpu →
      (cpu.run saveContext).mem.load (cpu.reg .rsi + offset f) = v := fun f v hf => by
    rw [mem_saveContext hclear]
    exact load_saved hbelow (by simp [earlyWords, lateWords, gprWords, saveRegs, saveRegsRsp]) hf
  have hseg : ∀ f v s, (f, low16 v s) ∈ lateWords cpu →
      ((cpu.run saveContext).mem.load (cpu.reg .rsi + offset f)).setWidth 16 = s := fun f v s hf => by
    rw [hload f _ (List.mem_append_right _ hf), setWidth_low16]
  exact {
    gpr := fun r => hload _ _ (List.mem_append_left _ (List.mem_append_left _ (mem_gprWords r)))
    rip := hload _ _ (by simp [earlyWords, returned])
    rflags := hload _ _ (by simp [lateWords, returned])
    seg := fun s => by
      cases s with
      | cs => exact hseg .cs _ _ (by simp [lateWords, returned]; rfl)
      | ss => exact hseg .ss _ _ (by simp [lateWords, returned]; rfl)
      | fs => exact hseg .fs _ _ (by simp [lateWords, returned]; rfl)
      | gs => exact hseg .gs _ _ (by simp [lateWords, returned]; rfl)
    cr3 := hload _ _ (by simp [earlyWords, returned])
    fpu := fun i => by
      rw [mem_saveContext hclear]
      exact write_apply (by decide) i }

theorem reg_rsp_saveContext : (cpu.run saveContext).reg .rsp = cpu.reg .rsp := by
  have hsys : ∀ c : Core, (c.run saveSys).reg .rsp = c.reg .rsp - 8 + 8 := fun c => by
    simp [saveSys, Core.run, Core.exec, Core.push, Core.setReg, Core.reg]
  rw [saveContext_eq, Core.run_append, run_saveRegs, hsys]
  exact (BitVec.sub_add_cancel _ _).trans (Core.reg_setReg_of_ne (by decide) _)

/-- The fall through to `RestoreContext` keeps what has been saved. -/
theorem holds_switchContext (hclear : ClearOf (cpu.reg .rsp + 8) 48 (cpu.reg .rsi) size) :
    Holds (cpu.run switchContext).mem (cpu.reg .rsi) (returned cpu) := by
  have hframe : ClearOf ((cpu.run saveContext).reg .rsp) 40 (cpu.reg .rsi) size := fun i hi => by
    have := hclear i hi
    rw [reg_rsp_saveContext]
    bv_omega
  rw [switchContext, Core.run_append]
  exact (holds_saveContext fun i hi => (show 16 ≤ 48 by decide).trans (hclear i hi)).congr
    fun i hi => (agreeOn_restoreContext hframe i hi).symm

end Save

/-! ## `IntHandlerLAPICTimer` -/

section Handler

variable {cpu : Core} {top handler : BitVec 64} {cs ss : BitVec 16}

/-- What the processor and the handler have pushed when RBP is set, below `sp`. -/
def interruptFrame (regs : Regs) : List (BitVec 64) :=
  [(regs.seg .ss).setWidth 64, regs.gpr .rsp, regs.rflags, (regs.seg .cs).setWidth 64, regs.rip,
    regs.gpr .rbp]

/-- The stack pointer that the processor takes. -/
def aligned (top : BitVec 64) : BitVec 64 := top &&& ~~~0xf

theorem run_handlerEntry (cpu : Core) :
    let cpu' := (cpu.interrupt top handler cs ss).run handlerEntry
    cpu'.mem = (cpu.mem.pushAll (aligned top) (interruptFrame cpu.regs)).write
        (aligned top - 560) cpu.regs.fpu ∧
      cpu'.reg .rbp = aligned top - 48 ∧ cpu'.reg .rsp = aligned top - 560 ∧
      (∀ r, r ≠ .rsp → r ≠ .rbp → cpu'.reg r = cpu.reg r) ∧
      cpu'.regs.cr3 = cpu.regs.cr3 ∧ cpu'.regs.seg .fs = cpu.regs.seg .fs ∧
      cpu'.regs.seg .gs = cpu.regs.seg .gs := by
  have hbp : ∀ sp : BitVec 64, sp - 40 - 8 = sp - 48 := fun sp => by bv_omega
  have hsp : ∀ sp : BitVec 64, sp - 48 - 512 = sp - 560 := fun sp => by bv_omega
  have hpush := @pushAll_append cpu.mem (aligned top) [(cpu.regs.seg .ss).setWidth 64, cpu.regs.gpr .rsp,
    cpu.regs.rflags, (cpu.regs.seg .cs).setWidth 64, cpu.regs.rip] [cpu.regs.gpr .rbp]
  refine ⟨?_, ?_, ?_, fun r hr hr' => ?_, rfl, rfl, rfl⟩
  · rw [interruptFrame]
    refine Eq.trans ?_ (congrArg (write · (aligned top - 560) cpu.regs.fpu) hpush.symm)
    rw [← hsp, ← hbp]
    simp [handlerEntry, Core.run, Core.exec, Core.push, Core.operand, Core.setReg, Core.reg, Core.addr,
      Core.interrupt, aligned, pushAll]
  · simp [handlerEntry, Core.run, Core.exec, Core.push, Core.setReg, Core.reg, Core.interrupt, aligned]
    exact hbp _
  · simp [handlerEntry, Core.run, Core.exec, Core.push, Core.setReg, Core.reg, Core.interrupt, aligned]
    exact (congrArg (· - 512) (hbp _)).trans (hsp _)
  · simp [handlerEntry, Core.run, Core.exec, Core.push, Core.setReg, Core.reg, Core.interrupt, hr, hr']

/-- The words of the context from R15 to RAX, and from GS to CR3. -/
def regWords (regs : Regs) : List (BitVec 64) :=
  [regs.gpr .r15, regs.gpr .r14, regs.gpr .r13, regs.gpr .r12, regs.gpr .r11, regs.gpr .r10, regs.gpr .r9,
    regs.gpr .r8, regs.gpr .rbp, regs.gpr .rsp, regs.gpr .rsi, regs.gpr .rdi, regs.gpr .rdx, regs.gpr .rcx,
    regs.gpr .rbx, regs.gpr .rax]

def sysWords (regs : Regs) (rbp : BitVec 64) : List (BitVec 64) :=
  [low16 (regs.gpr .rbx) (regs.seg .gs), low16 (regs.gpr .rax) (regs.seg .fs), (regs.seg .ss).setWidth 64,
    (regs.seg .cs).setWidth 64, rbp, regs.rflags, regs.rip, regs.cr3]

/-- A register other than RSP, or a word of the frame of the interrupt. -/
def frameOperand : Operand → Bool
  | .reg r => r ≠ .rsp
  | .mem a => a.base = .rbp ∧ a.disp.toNat ≤ 40

/-- The frame of the interrupt is not below the stack pointer any more. -/
theorem stable_of_frameOperand {c : Core} {sp : BitVec 64} {pushed n : Nat} (hbp : c.reg .rbp = sp - 48)
    (hsp : c.reg .rsp = sp - 560 - BitVec.ofNat 64 pushed) (hn : pushed + n ≤ 192) {op : Operand}
    (hop : frameOperand op) : c.Stable n op := by
  cases op with
  | reg r => exact show r ≠ .rsp from of_decide_eq_true hop
  | mem a =>
    obtain ⟨hbase, hdisp⟩ := of_decide_eq_true hop
    refine ⟨by rw [hbase]; decide, fun i hi => ?_⟩
    rw [Core.addr, hbase, hbp, hsp]
    bv_omega

theorem load_frame {m : X86.Memory} {sp : BitVec 64} {regs : Regs} {fpu : Fin 512 → BitVec 8} {k : Nat}
    (hk : k < 6) : ((m.pushAll sp (interruptFrame regs)).write (sp - 560) fpu).load
      (sp - 48 + BitVec.ofNat 64 (8 * k)) = (interruptFrame regs).getD (5 - k) 0 := by
  have hlen : (interruptFrame regs).length = 6 := rfl
  have hfx : AgreeOn ((m.pushAll sp (interruptFrame regs)).write (sp - 560) fpu)
      (m.pushAll sp (interruptFrame regs)) (sp - 48 + BitVec.ofNat 64 (8 * k)) 8 := fun i hi =>
    write_of_le (by bv_omega)
  rw [load_congr hfx, List.getD_eq_getElem _ _ (by omega)]
  exact load_pushAll_base (hk.trans_eq hlen.symm) (by rw [hlen]; decide)

/-- When the words up to RAX have been pushed. -/
theorem run_handlerRegs (cpu : Core) :
    let cpu' := (cpu.interrupt top handler cs ss).run
      (handlerEntry ++ handlerFrameRegs.map .push ++ handlerMoves)
    cpu'.mem = ((cpu.mem.pushAll (aligned top) (interruptFrame cpu.regs)).write (aligned top - 560)
        cpu.regs.fpu).pushAll (aligned top - 560) (regWords cpu.regs) ∧
      cpu'.reg .rbp = aligned top - 48 ∧ cpu'.reg .rsp = aligned top - 560 - BitVec.ofNat 64 128 ∧
      cpu'.reg .rax = low16 (cpu.reg .rax) (cpu.regs.seg .fs) ∧
      cpu'.reg .rbx = low16 (cpu.reg .rbx) (cpu.regs.seg .gs) ∧ cpu'.reg .rcx = cpu.regs.cr3 := by
  obtain ⟨hmem, hbp, hsp, hreg, hcr3, hfs, hgs⟩ := @run_handlerEntry top handler cs ss cpu
  simp only [Core.run_append]
  generalize (cpu.interrupt top handler cs ss).run handlerEntry = c at *
  have hstable : ∀ op ∈ handlerFrameRegs, c.Stable (8 * handlerFrameRegs.length) op := fun op hop =>
    stable_of_frameOperand hbp (hsp.trans (BitVec.sub_zero _).symm) (by decide)
      ((by decide : ∀ op ∈ handlerFrameRegs, frameOperand op) op hop)
  have hwords : handlerFrameRegs.map c.operand = regWords cpu.regs := by
    have hframe : ∀ k < 6, c.mem.load (c.reg .rbp + BitVec.ofNat 64 (8 * k)) =
        (interruptFrame cpu.regs).getD (5 - k) 0 := fun k hk => by
      rw [hmem, hbp]
      exact load_frame hk
    have hrbp : c.mem.load (c.reg .rbp + 0) = cpu.regs.gpr .rbp := hframe 0 (by decide)
    have hrsp : c.mem.load (c.reg .rbp + 0x20) = cpu.regs.gpr .rsp := hframe 4 (by decide)
    have hgpr : ∀ r, r ≠ .rsp → r ≠ .rbp → c.regs.gpr r = cpu.regs.gpr r := hreg
    simp only [handlerFrameRegs, List.map_cons, List.map_nil, Core.operand, Core.addr, hrbp, hrsp]
    simp [hgpr, regWords, Core.reg]
  rw [Core.run_push hstable, hwords, hmem, hsp]
  refine ⟨rfl, hbp, rfl, ?_, ?_, hcr3⟩
  · rw [← hreg .rax (by decide) (by decide), ← hfs]
    rfl
  · rw [← hreg .rbx (by decide) (by decide), ← hgs]
    rfl

theorem run_intHandler (cpu : Core) :
    let cpu' := (cpu.interrupt top handler cs ss).run intHandlerLAPICTimer
    cpu'.reg .rdi = aligned top - 752 ∧
      cpu'.mem = ((cpu.mem.pushAll (aligned top) (interruptFrame cpu.regs)).write (aligned top - 560)
        cpu.regs.fpu).pushAll (aligned top - 560)
          (regWords cpu.regs ++ sysWords cpu.regs (aligned top - 48)) := by
  obtain ⟨hmem, hbp, hsp, hrax, hrbx, hrcx⟩ := @run_handlerRegs top handler cs ss cpu
  rw [intHandlerLAPICTimer, Core.run_append, Core.run_append]
  generalize (cpu.interrupt top handler cs ss).run
    (handlerEntry ++ handlerFrameRegs.map .push ++ handlerMoves) = c at *
  have hstable : ∀ op ∈ handlerFrameSys, c.Stable (8 * handlerFrameSys.length) op := fun op hop =>
    stable_of_frameOperand hbp hsp (by decide) ((by decide : ∀ op ∈ handlerFrameSys, frameOperand op) op hop)
  have hwords : handlerFrameSys.map c.operand = sysWords cpu.regs (aligned top - 48) := by
    have hframe : ∀ k < 6, c.mem.load (c.reg .rbp + BitVec.ofNat 64 (8 * k)) =
        (interruptFrame cpu.regs).getD (5 - k) 0 := fun k hk => by
      have hbelow : ClearOf (aligned top - 560) (8 * (regWords cpu.regs).length)
          (aligned top - 48 + BitVec.ofNat 64 (8 * k)) 8 := fun i hi => by
        have hlen : (regWords cpu.regs).length = 16 := rfl
        rw [hlen]
        bv_omega
      rw [hmem, hbp, load_congr (agreeOn_pushAll hbelow)]
      exact load_frame hk
    have hrip : c.mem.load (c.reg .rbp + 0x08) = cpu.regs.rip := hframe 1 (by decide)
    have hcs : c.mem.load (c.reg .rbp + 0x10) = (cpu.regs.seg .cs).setWidth 64 := hframe 2 (by decide)
    have hrflags : c.mem.load (c.reg .rbp + 0x18) = cpu.regs.rflags := hframe 3 (by decide)
    have hss : c.mem.load (c.reg .rbp + 0x28) = (cpu.regs.seg .ss).setWidth 64 := hframe 5 (by decide)
    simp only [handlerFrameSys, List.map_cons, List.map_nil, Core.operand, Core.addr, hrip, hcs, hrflags,
      hss, hrax, hrbx, hrcx]
    rw [hbp]
    rfl
  rw [Core.run_push hstable, hwords, hmem, hsp]
  have hctx : ∀ sp : BitVec 64, sp - 560 - 128 - 64 = sp - 752 := fun sp => by bv_omega
  refine ⟨?_, pushAll_append.symm⟩
  rw [← hctx]
  simp only [Core.run, List.foldl_cons, List.foldl_nil, Core.exec, Core.reg_setReg]
  exact Core.reg_setReg _

theorem holds_intHandler (cpu : Core) :
    Holds ((cpu.interrupt top handler cs ss).run intHandlerLAPICTimer).mem
      (((cpu.interrupt top handler cs ss).run intHandlerLAPICTimer).reg .rdi) cpu.regs := by
  obtain ⟨hrdi, hmem⟩ := @run_intHandler top handler cs ss cpu
  rw [hrdi, hmem]
  have hword : ∀ f, (((cpu.mem.pushAll (aligned top) (interruptFrame cpu.regs)).write (aligned top - 560)
      cpu.regs.fpu).pushAll (aligned top - 560)
        (regWords cpu.regs ++ sysWords cpu.regs (aligned top - 48))).load (aligned top - 752 + offset f) =
      (regWords cpu.regs ++ sysWords cpu.regs (aligned top - 48)).getD (23 - index f) 0 := by
    intro f
    have hlen : (regWords cpu.regs ++ sysWords cpu.regs (aligned top - 48)).length = 24 := rfl
    have hctx : aligned top - 752 = aligned top - 560 - BitVec.ofNat 64 (8 * 24) := by bv_omega
    rw [List.getD_eq_getElem _ _ (by omega), hctx]
    exact load_pushAll_base (by rw [hlen]; exact index_lt f) (by rw [hlen]; decide)
  exact {
    gpr := fun r => (hword _).trans (by cases r <;> rfl)
    rip := hword .rip
    rflags := hword .rflags
    seg := fun s => (congrArg (BitVec.setWidth 16) (hword _)).trans (by
      cases s with
      | cs => exact BitVec.setWidth_setWidth_of_le (cpu.regs.seg .cs) (show 16 ≤ 64 by decide)
      | ss => exact BitVec.setWidth_setWidth_of_le (cpu.regs.seg .ss) (show 16 ≤ 64 by decide)
      | fs | gs => exact setWidth_low16 _ _)
    cr3 := hword .cr3
    fpu := fun i => by
      have haddr : aligned top - 752 + fxsaveOffset = aligned top - 560 := by
        rw [fxsaveOffset]
        bv_omega
      have hlen : (regWords cpu.regs ++ sysWords cpu.regs (aligned top - 48)).length = 24 := rfl
      have hi := i.isLt
      rw [haddr, pushAll_apply (by rw [hlen]; bv_omega)]
      exact write_apply (by decide) i }


end Handler

end MikanOS
