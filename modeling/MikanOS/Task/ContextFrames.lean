import MikanOS.Task.Descriptors

/-! # The first context of a task, and the return from the timer

`Task::InitContext`, and `IntHandlerLAPICTimer` behind the call of `LAPICTimerOnInterrupt`. -/

namespace MikanOS

open X86 X86.Memory

namespace TaskContext

/-- The words that `InitContext` stores. -/
def initWords (cr3 stackEnd f id data : BitVec 64) : List (Field × BitVec 64) :=
  [(.cr3, cr3), (.rflags, 0x202), (.cs, kKernelCS.setWidth 64), (.ss, kKernelSS.setWidth 64),
    (.rsp, (stackEnd &&& ~~~0xf) - 8), (.rip, f), (.rdi, id), (.rsi, data)]

/-- `Task::InitContext`: the stores to `context_`, which is at `ctx`. All exceptions of MXCSR are masked. -/
def initContext (m : X86.Memory) (ctx cr3 stackEnd f id data : BitVec 64) : X86.Memory :=
  (storeAll index (m.write ctx fun _ : Fin size => 0) ctx (initWords cr3 stackEnd f id data)).write
    (ctx + fxsaveOffset + 24) fun i : Fin 4 => (0x1f80 : BitVec 32).extractLsb' (8 * i) 8

/-- The registers that a task starts with. -/
def initRegs (cr3 stackEnd f id data : BitVec 64) : Regs where
  gpr
    | .rsp => (stackEnd &&& ~~~0xf) - 8
    | .rdi => id
    | .rsi => data
    | _ => 0
  rip := f
  rflags := 0x202
  seg
    | .cs => kKernelCS
    | .ss => kKernelSS
    | _ => 0
  cr3 := cr3
  fpu := fun i => if i.val = 24 then 0x80 else if i.val = 25 then 0x1f else 0

variable {m : X86.Memory} {ctx cr3 stackEnd f id data : BitVec 64}

theorem load_zero {a : BitVec 64} (h : ∀ i < 8, m (a + BitVec.ofNat 64 i) = 0) : m.load a = 0 := by
  refine BitVec.eq_of_getLsbD_eq fun i hi => ?_
  rw [load, BitVec.getLsbD_ofFnLE, dif_pos hi, h _ (by omega)]
  exact BitVec.getLsbD_zero.trans BitVec.getLsbD_zero.symm

/-- Each word is the one that is stored, or zero. -/
theorem load_initContext (field : Field) :
    (initContext m ctx cr3 stackEnd f id data).load (ctx + offset field) =
      ((initWords cr3 stackEnd f id data).lookup field).getD 0 := by
  have hlt := index_lt field
  have hfx : AgreeOn (initContext m ctx cr3 stackEnd f id data)
      (storeAll index (m.write ctx fun _ : Fin size => 0) ctx (initWords cr3 stackEnd f id data))
      (ctx + offset field) 8 := fun i hi =>
    write_of_le (by rw [fxsaveOffset, offset]; bv_omega)
  rw [load_congr hfx]
  cases hv : (initWords cr3 stackEnd f id data).lookup field with
  | some v =>
    have hmem : (field, v) ∈ initWords cr3 stackEnd f id data := by
      obtain ⟨l₁, l₂, heq, -⟩ := List.lookup_eq_some_iff.mp hv
      rw [heq]
      exact List.mem_append_right _ List.mem_cons_self
    have hnd : ((initWords cr3 stackEnd f id data).map fun p => index p.1).Nodup :=
      show [0, 2, 4, 5, 14, 1, 12, 13].Nodup by decide
    exact load_storeAll index_lt' hnd hmem
  | none =>
    have hne : ∀ p ∈ initWords cr3 stackEnd f id data, index p.1 ≠ index field := fun p hp heq => by
      have := List.lookup_eq_none_iff.mp hv p hp
      rw [index_injective heq] at this
      simp at this
    refine (load_storeAll_of_ne index_lt' hne).trans (load_zero fun i hi => ?_)
    have hin : (ctx + offset field + BitVec.ofNat 64 i - ctx).toNat < size := by
      rw [offset, size]
      bv_omega
    exact dif_pos hin

/-- The task starts with the registers that the calling convention asks for. -/
theorem holds_initContext :
    Holds (initContext m ctx cr3 stackEnd f id data) ctx (initRegs cr3 stackEnd f id data) where
  gpr := fun r => (load_initContext (ofReg r)).trans (by cases r <;> rfl)
  rip := load_initContext .rip
  rflags := load_initContext .rflags
  seg := fun s => (congrArg (BitVec.setWidth 16) (load_initContext (ofSeg s))).trans (by cases s <;> rfl)
  cr3 := load_initContext .cr3
  fpu := fun i => by
    have hi := i.isLt
    rw [initContext, initRegs]
    by_cases hin : 24 ≤ i.val ∧ i.val < 28
    · have hat : (ctx + fxsaveOffset + BitVec.ofNat 64 i - (ctx + fxsaveOffset + 24)).toNat = i.val - 24 := by
        bv_omega
      rw [write, dif_pos (by omega)]
      simp only [hat]
      obtain h | h | h | h : i.val = 24 ∨ i.val = 25 ∨ i.val = 26 ∨ i.val = 27 := by omega
      all_goals
        rw [h]
        decide
    · have hout : 4 ≤ (ctx + fxsaveOffset + BitVec.ofNat 64 i - (ctx + fxsaveOffset + 24)).toNat := by bv_omega
      have hzero : (ctx + fxsaveOffset + BitVec.ofNat 64 i - ctx).toNat < size := by
        rw [fxsaveOffset, size]
        bv_omega
      have hwords : ∀ j < 8 * 24, ctx + fxsaveOffset + BitVec.ofNat 64 i ≠ ctx + BitVec.ofNat 64 j := fun j hj => by
        rw [fxsaveOffset]
        bv_omega
      have h24 : i.val ≠ 24 := by omega
      have h25 : i.val ≠ 25 := by omega
      rw [write_of_le hout, storeAll_apply index_lt hwords, write, dif_pos hzero]
      exact ((if_neg h24).trans (if_neg h25)).symm

/-- Behind the call of a function the stack is misaligned by a word, and the first word is in the stack. -/
theorem initRegs_rsp {stack : BitVec 64} {n : Nat} (hn : 32 ≤ n) (hend : stack.toNat + n < 2 ^ 64) :
    let rsp := (initRegs cr3 (stack + BitVec.ofNat 64 n) f id data).gpr .rsp
    rsp.toNat % 16 = 8 ∧ stack.toNat + n < rsp.toNat + 24 ∧ rsp.toNat + 8 ≤ stack.toNat + n := by
  have halign := toNat_align (stack + BitVec.ofNat 64 n)
  have hrsp : (initRegs cr3 (stack + BitVec.ofNat 64 n) f id data).gpr .rsp =
      ((stack + BitVec.ofNat 64 n) &&& ~~~0xf) - 8 := rfl
  rw [hrsp]
  generalize (stack + BitVec.ofNat 64 n) &&& ~~~0xf = top at *
  bv_omega

end TaskContext

/-! ## The return from the timer -/

/-- `IntHandlerLAPICTimer` behind the call of `LAPICTimerOnInterrupt`. -/
def handlerExit : List CallInstr :=
  [.add .rsp (8 * 8)] ++ [Reg.rax, .rbx, .rcx, .rdx, .rdi, .rsi].map .pop ++ [.add .rsp 16] ++
    [Reg.r8, .r9, .r10, .r11, .r12, .r13, .r14, .r15].map .pop ++
    [.plain (.fxrstor ⟨.rsp, 0⟩), .plain (.mov .rsp .rbp), .pop .rbp, .plain .iretq]

open TaskContext

section Return

variable {top entry : BitVec 64} {cs ss : BitVec 16}

/-- The registers with which the handler calls. -/
theorem regs_intHandler (cpu : Core) :
    let cpu' := (cpu.interrupt top entry cs ss).run intHandlerLAPICTimer
    cpu'.reg .rsp = aligned top - 752 ∧ cpu'.reg .rbp = aligned top - 48 ∧ cpu'.regs.cr3 = cpu.regs.cr3 ∧
      cpu'.regs.seg .fs = cpu.regs.seg .fs ∧ cpu'.regs.seg .gs = cpu.regs.seg .gs := by
  have hrsp := (@run_intHandler top entry cs ss cpu).1
  have hrbp : aligned top - 40 - 8 = aligned top - 48 := by bv_omega
  exact ⟨hrsp, hrbp, rfl, rfl, rfl⟩

/-- The frame of the interrupt stays below the context. -/
theorem load_intHandler (cpu : Core) {k : Nat} (hk : k < 6) :
    ((cpu.interrupt top entry cs ss).run intHandlerLAPICTimer).mem.load
      (aligned top - 48 + BitVec.ofNat 64 (8 * k)) = (interruptFrame cpu.regs).getD (5 - k) 0 := by
  have hlen : 8 * (regWords cpu.regs ++ sysWords cpu.regs (aligned top - 48)).length = 192 := rfl
  rw [(@run_intHandler top entry cs ss cpu).2]
  exact (load_congr (agreeOn_pushAll fun i hi => by rw [hlen]; bv_omega)).trans (load_frame hk)

/-- A run of `pop` instructions over a part of a context. -/
theorem gpr_pops {cpu : Core} {regs : Regs} {ctx : BitVec 64} {rs : List Reg} {k : Nat} (h : Holds cpu.mem ctx regs)
    (hrsp : cpu.reg .rsp = ctx + BitVec.ofNat 64 (8 * k)) (hsp : .rsp ∉ rs) (hnd : rs.Nodup)
    (hindex : ∀ (i : Nat) (h : i < rs.length), index (ofReg rs[i]) = k + i) :
    ∃ gpr, cpu.runCalls (rs.map .pop) = { cpu with regs := { cpu.regs with gpr } } ∧
      gpr .rsp = ctx + BitVec.ofNat 64 (8 * (k + rs.length)) ∧ (∀ r, r ≠ .rsp → r ∉ rs → gpr r = cpu.reg r) ∧
      ∀ r ∈ rs, gpr r = regs.gpr r := by
  obtain ⟨gpr, hrun, hsp', hother, hloaded⟩ := @Core.runCalls_pop cpu rs hsp hnd
  have haddr : ∀ i, ctx + BitVec.ofNat 64 (8 * k) + BitVec.ofNat 64 (8 * i) = ctx + BitVec.ofNat 64 (8 * (k + i)) :=
    fun i => by rw [BitVec.add_assoc, ← BitVec.ofNat_add, Nat.mul_add]
  refine ⟨gpr, hrun, by rw [hsp', hrsp, haddr], hother, fun r hr => ?_⟩
  obtain ⟨i, hi, rfl⟩ := List.getElem_of_mem hr
  rw [hloaded i hi, hrsp, haddr, ← hindex i hi]
  exact h.gpr rs[i]

/-- The end of the handler: what is in `regs` apart from the two stack registers is there already. -/
theorem run_leave {cpu : Core} {regs : Regs} (hgpr : ∀ r, r ≠ .rsp → r ≠ .rbp → cpu.reg r = regs.gpr r)
    (hframe : ∀ k < 6, cpu.mem.load (cpu.reg .rbp + BitVec.ofNat 64 (8 * k)) = (interruptFrame regs).getD (5 - k) 0)
    (hfpu : ∀ i : Fin 512, cpu.mem (cpu.reg .rsp + BitVec.ofNat 64 i) = regs.fpu i)
    (hcr3 : cpu.regs.cr3 = regs.cr3) (hfs : cpu.regs.seg .fs = regs.seg .fs)
    (hgs : cpu.regs.seg .gs = regs.seg .gs) :
    cpu.runCalls [.plain (.fxrstor ⟨.rsp, 0⟩), .plain (.mov .rsp .rbp), .pop .rbp, .plain .iretq] =
      { cpu with regs } := by
  have hiret : ∀ k < 5, cpu.mem.load (cpu.reg .rbp + 8 + BitVec.ofNat 64 (8 * k)) =
      (interruptFrame regs).getD (4 - k) 0 := fun k hk => by
    have haddr : cpu.reg .rbp + 8 + BitVec.ofNat 64 (8 * k) = cpu.reg .rbp + BitVec.ofNat 64 (8 * (k + 1)) := by
      bv_omega
    rw [haddr, hframe (k + 1) (by omega)]
    exact congrArg ((interruptFrame regs).getD · 0) (by omega)
  have hrbp : cpu.mem.load (cpu.reg .rbp) = regs.gpr .rbp :=
    (congrArg cpu.mem.load (BitVec.add_zero _).symm).trans (hframe 0 (by decide))
  have hrip : cpu.mem.load (cpu.reg .rbp + 8) = regs.rip :=
    (congrArg cpu.mem.load (BitVec.add_zero _).symm).trans (hiret 0 (by decide))
  refine congrArg (Core.mk · cpu.mem) (Regs.ext ?_ hrip (hiret 2 (by decide)) ?_ hcr3 ?_)
  · funext r
    by_cases hsp : r = .rsp
    · rw [hsp]
      exact hiret 3 (by decide)
    refine (Function.update_of_ne hsp _ _).trans ?_
    by_cases hbp : r = .rbp
    · rw [hbp]
      exact hrbp
    · refine (Function.update_of_ne hbp _ _).trans ((Function.update_of_ne hsp _ _).trans ?_)
      exact (Function.update_of_ne hsp _ _).trans (hgpr r hsp hbp)
  · funext s
    cases s with
    | cs =>
      exact (congrArg (BitVec.setWidth 16) (hiret 1 (by decide))).trans
        (BitVec.setWidth_setWidth_of_le (regs.seg .cs) (show 16 ≤ 64 by decide))
    | ss =>
      exact (congrArg (BitVec.setWidth 16) (hiret 4 (by decide))).trans
        (BitVec.setWidth_setWidth_of_le (regs.seg .ss) (show 16 ≤ 64 by decide))
    | fs => exact hfs
    | gs => exact hgs
  · funext i
    exact (congrArg (fun a => cpu.mem (a + BitVec.ofNat 64 i)) (BitVec.add_zero _)).trans (hfpu i)

/-- Behind the call the handler takes the registers back from the context and from the frame of the interrupt. -/
theorem run_handlerExit {cpu : Core} {regs : Regs} (h : Holds cpu.mem (cpu.reg .rsp) regs)
    (hframe : ∀ k < 6, cpu.mem.load (cpu.reg .rbp + BitVec.ofNat 64 (8 * k)) = (interruptFrame regs).getD (5 - k) 0)
    (hcr3 : cpu.regs.cr3 = regs.cr3) (hfs : cpu.regs.seg .fs = regs.seg .fs)
    (hgs : cpu.regs.seg .gs = regs.seg .gs) :
    cpu.runCalls handlerExit = { cpu with regs } := by
  let low : List Reg := [.rax, .rbx, .rcx, .rdx, .rdi, .rsi]
  let high : List Reg := [.r8, .r9, .r10, .r11, .r12, .r13, .r14, .r15]
  let c₁ := cpu.execCall (.add .rsp (8 * 8))
  have hrsp₁ : c₁.reg .rsp = cpu.reg .rsp + BitVec.ofNat 64 (8 * 8) := Core.reg_add _ _
  have hrbp₁ : c₁.reg .rbp = cpu.reg .rbp := Core.reg_add_of_ne (by decide) _
  obtain ⟨gpr₂, hrun₂, hrsp₂, hother₂, hlow⟩ :=
    @gpr_pops c₁ regs _ low 8 h hrsp₁ (by decide) (by decide) (by decide)
  let c₂ : Core := { c₁ with regs := { c₁.regs with gpr := gpr₂ } }
  let c₃ := c₂.execCall (.add .rsp 16)
  have hrsp₃ : c₃.reg .rsp = cpu.reg .rsp + BitVec.ofNat 64 (8 * 16) := by
    have hsum : cpu.reg .rsp + BitVec.ofNat 64 (8 * 14) + 16 = cpu.reg .rsp + BitVec.ofNat 64 (8 * 16) := by
      rw [BitVec.add_assoc]
      rfl
    exact (@Core.reg_add c₂ _ _).trans ((congrArg (· + 16) hrsp₂).trans hsum)
  have hreg₃ : ∀ r, r ≠ .rsp → c₃.reg r = gpr₂ r := fun r hr => Core.reg_add_of_ne hr _
  obtain ⟨gpr₄, hrun₄, hrsp₄, hother₄, hhigh⟩ :=
    @gpr_pops c₃ regs _ high 16 h hrsp₃ (by decide) (by decide) (by decide)
  let c₄ : Core := { c₃ with regs := { c₃.regs with gpr := gpr₄ } }
  have hrun : cpu.runCalls handlerExit =
      c₄.runCalls [.plain (.fxrstor ⟨.rsp, 0⟩), .plain (.mov .rsp .rbp), .pop .rbp, .plain .iretq] := by
    rw [handlerExit, Core.runCalls_append, Core.runCalls_append, Core.runCalls_append, Core.runCalls_append]
    refine congrArg (fun c : Core => c.runCalls _) ?_
    exact (congrArg (fun c : Core => (c.runCalls [.add .rsp 16]).runCalls (high.map .pop)) hrun₂).trans hrun₄
  have hrbp₄ : gpr₄ .rbp = cpu.reg .rbp := by
    rw [hother₄ _ (by decide) (by decide), hreg₃ _ (by decide), hother₂ _ (by decide) (by decide), hrbp₁]
  have hlow₄ : ∀ r ∈ low, gpr₄ r = regs.gpr r := fun r hr => by
    have hne := (by decide : ∀ r ∈ low, r ≠ .rsp ∧ r ∉ high) r hr
    rw [hother₄ r hne.1 hne.2, hreg₃ r hne.1, hlow r hr]
  have hgpr : ∀ r, r ≠ .rsp → r ≠ .rbp → gpr₄ r = regs.gpr r := fun r hsp hbp => by
    have hmem : r ∈ low ∨ r ∈ high := by
      cases r <;> first | exact absurd rfl hsp | exact absurd rfl hbp | decide
    exact hmem.elim (hlow₄ r) (hhigh r)
  refine hrun.trans (@run_leave c₄ regs hgpr ?_ (fun i => ?_) hcr3 hfs hgs)
  · rw [show c₄.reg .rbp = cpu.reg .rbp from hrbp₄]
    exact hframe
  · rw [show c₄.reg .rsp = cpu.reg .rsp + fxsaveOffset from hrsp₄]
    exact h.fpu i

/-- Without a switch the handler returns to the interrupted program, which goes on with all its registers. -/
theorem timer_returns {cpu called out : Core}
    (hcalled : called = (cpu.interrupt top entry cs ss).run intHandlerLAPICTimer)
    (hm : AgreeOn called.mem out.mem (aligned top - 752) 752) :
    (called.call (fun _ => false) out).runCalls handlerExit = ⟨cpu.regs, out.mem⟩ := by
  have hregs := @regs_intHandler top entry cs ss cpu
  have hholds := @holds_intHandler top entry cs ss cpu
  have hctx := (@run_intHandler top entry cs ss cpu).1
  have hload := fun k => @load_intHandler top entry cs ss cpu k
  simp only [← hcalled] at hregs hholds hctx hload
  clear hcalled
  obtain ⟨hrsp, hrbp, hcr3, hfs, hgs⟩ := hregs
  have hrsp' : (called.call (fun _ => false) out).reg .rsp = aligned top - 752 := hrsp
  have hrbp' : (called.call (fun _ => false) out).reg .rbp = aligned top - 48 := hrbp
  refine run_handlerExit ?_ (fun k hk => ?_) hcr3 hfs hgs
  · rw [hctx] at hholds
    rw [hrsp']
    exact hholds.congr fun i hi => hm i (by simp only [size] at hi; omega)
  · rw [hrbp', ← hload k hk]
    refine (load_congr fun i hi => ?_).symm
    have haddr : aligned top - 48 + BitVec.ofNat 64 (8 * k) + BitVec.ofNat 64 i =
        aligned top - 752 + BitVec.ofNat 64 (704 + 8 * k + i) := by bv_omega
    rw [haddr]
    exact hm _ (by omega)

end Return

end MikanOS
