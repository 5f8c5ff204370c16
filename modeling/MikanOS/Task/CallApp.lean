import MikanOS.Library.Transition
import MikanOS.Library.X86Calls

/-! # Applications between `CallApp` and `ExitApp`

The assembly routines `CallApp`, `SyscallEntry` and `ExitApp`, on the kernel stack of the task and on the
stack of the application. The functions behind `syscall_table` may do what compiled functions may do. -/

namespace MikanOS

open X86 X86.Memory

/-- `IA32_STAR` as `InitializeSyscall` writes it. `IA32_FMASK` is 0. -/
def syscallStar : BitVec 64 := 8 <<< 32 ||| (16 ||| 3) <<< 48

def push (r : Reg) : CallInstr := .plain (.push (.reg r))

/-- The registers that `CallApp` saves. -/
def callAppSaved : List Reg := [.rbx, .rbp, .r12, .r13, .r14, .r15]

/-- `CallApp(argc, argv, ss, rip, rsp, os_stack_ptr)`. -/
def callApp : List CallInstr :=
  callAppSaved.map push ++
    [.plain (.store ⟨.r9, 0⟩ .rsp), push .rdx, push .r8, .add .rdx 8, push .rdx, push .rcx, .retf]

/-- `ExitApp(rsp, ret_val)`. -/
def exitApp : List CallInstr :=
  [.plain (.mov .rsp .rdi), .mov32 .rax .rsi] ++ callAppSaved.reverse.map .pop ++ [.ret]

/-- `SyscallEntry` up to the call of `GetCurrentTaskOSStackPointer`. -/
def syscallEntrySave : List CallInstr :=
  [push .rbp, push .rcx, push .r11, push .rax, .plain (.mov .rcx .r10), .and32 .rax 0x7fffffff,
    .plain (.mov .rbp .rsp), .and .rsp (~~~0xf), push .rax, push .rdx, .cli]

/-- From there to the call of the function in `syscall_table`. -/
def syscallEntrySwitch : List CallInstr :=
  [.sti, .plain (.load .rdx ⟨.rsp, 0⟩), .plain (.store ⟨.rax, -16⟩ .rdx), .plain (.load .rdx ⟨.rsp, 8⟩),
    .plain (.store ⟨.rax, -8⟩ .rdx), .plain (.lea .rsp ⟨.rax, -16⟩), .pop .rdx, .pop .rax,
    .and .rsp (~~~0xf)]

/-- The bytes that only the kernel code for this application writes while it runs: the frame of `CallApp` with
the return address, and `os_stack_ptr_`. `c` is the core when `CallApp` is called. -/
def appFrame (c : Core) (x : BitVec 64) : Bool :=
  (x - (c.reg .rsp - 48)).toNat < 56 || (x - c.reg .r9).toNat < 8

/-- Where applications have their memory. -/
def appHalf : Nat := 0xffff800000000000

/-- `GetCurrentTaskOSStackPointer`, which gives all registers back but RAX. It uses less than 1 KiB of the stack. -/
def getCurrentTaskOSStackPointer (c core out : Core) : Core where
  regs := { core.regs with
    gpr := Function.update core.regs.gpr .rax (core.mem.load (c.reg .r9))
    rflags := out.regs.rflags }
  mem := fun x => if (core.reg .rsp - 1 - x).toNat < 1024 then out.mem x else core.mem x

/-- The functions of the system calls. No buffer of the application is below its stack pointer, where `RBP`
points to what `SyscallEntry` has saved. `Exit` returns `{os_stack_ptr_, arg1}`. -/
def syscallFunction (c core out : Core) : Core :=
  let core' := core.call (fun x => appFrame c x || (x - core.reg .rbp).toNat < 32) out
  if core.reg .rax = 2 then
    (core'.setReg .rax (core.mem.load (c.reg .r9))).setReg .rdx
      ((out.reg .rdx).extractLsb' 32 32 ++ (core.reg .rdi).setWidth 32)
  else core'

/-- `128 + SIGSEGV`. -/
def sigsegvStatus : BitVec 32 := 139

/-- `KillApp` up to its call `ExitApp(task.OSStackPointer(), 128 + SIGSEGV)`. The handler has a stack of its own. -/
def killApp (c core out : Core) : Core :=
  let core' : Core := ⟨out.regs, fun x => if appFrame c x then core.mem x else out.mem x⟩
  (core'.setReg .rdi (core'.mem.load (c.reg .r9))).setReg .rsi (sigsegvStatus.setWidth 64)

/-- The state while the application runs and after that. `ended` is the argument of `Exit`, or the exit code
that `KillApp` passes on. -/
structure AppCall where
  core : Core
  ended : Option (BitVec 32)

namespace AppCall

/-- What the application does in its ring, what interrupt handlers and other tasks do meanwhile, its system calls
and its fatal exceptions. -/
inductive Event where
  | app (regs : Regs) (mem : X86.Memory)
  | others (mem : X86.Memory)
  | syscall (own out : Core)
  | fault (out : Core)

variable (lstar : BitVec 64) (c : Core)

/-- `syscall` and `SyscallEntry` up to the call of the function in `syscall_table`. -/
def enter (core own : Core) : Core :=
  (getCurrentTaskOSStackPointer c ((core.syscall syscallStar lstar 0).runCalls syscallEntrySave) own).runCalls
    syscallEntrySwitch

/-- `SyscallEntry` behind that call. -/
def leave (core : Core) (arg : BitVec 32) : AppCall :=
  let core := core.runCalls [.plain (.mov .rsp .rbp), .pop .rsi]
  if (core.reg .rsi).setWidth 32 = (0x80000002 : BitVec 32) then
    ⟨(core.runCalls [.plain (.mov .rdi .rax), .mov32 .rsi .rdx]).runCalls exitApp, some arg⟩
  else ⟨(core.runCalls [.pop .r11, .pop .rcx, .pop .rbp]).sysret syscallStar, none⟩

/-- A system call: the state in which its function returns, and the one behind it. -/
def functionResult (core own out : Core) : Core := syscallFunction c (enter lstar c core own) out

def systemCall (core own out : Core) : AppCall :=
  leave (functionResult lstar c core own out) ((core.reg .rdi).setWidth 32)

/-- A system call is one of the table, and the application's stack pointer is in its half of the address space,
with 2 KiB below it. -/
def step (s : AppCall) (e : Event) : Option AppCall :=
  if s.ended.isSome then none
  else
    match e with
    -- the ring and the page tables are not the application's to change, and the lower half is the kernel's
    | .app regs mem => some { s with core := {
        regs := { regs with
          seg := Function.update (Function.update regs.seg .cs (s.core.regs.seg .cs)) .ss (s.core.regs.seg .ss)
          cr3 := s.core.regs.cr3 }
        mem := fun x => if x.toNat < appHalf then s.core.mem x else mem x } }
    | .others mem => some { s with core.mem := fun x => if appFrame c x then s.core.mem x else mem x }
    | .syscall own out =>
      if (s.core.reg .rax &&& 0x7fffffff).toNat < 16 ∧ appHalf + 2048 ≤ (s.core.reg .rsp).toNat then
        some (systemCall lstar c s.core own out)
      else none
    | .fault out => some ⟨(killApp c s.core out).runCalls exitApp, some sigsegvStatus⟩

def system : Transition.System AppCall Event := ⟨step lstar c⟩

/-- The application begins. -/
def start : AppCall := ⟨c.runCalls callApp, none⟩

/-! ## Entering and leaving an application -/

/-- The call in `ExecuteFile`: the stack and the task are in the lower half of the address space and apart, and
the selector is that of the data segment of ring 3. -/
structure Ready (c : Core) : Prop where
  stack : 4096 ≤ (c.reg .rsp).toNat ∧ (c.reg .rsp).toNat + 8 ≤ appHalf
  ptr : (c.reg .r9).toNat + 8 ≤ appHalf
  apart : ClearOf (c.reg .rsp + 8) 88 (c.reg .r9) 8
  ss : (c.reg .rdx).setWidth 16 = (0x1b : BitVec 16)
  cs : c.regs.seg .cs = 8

/-- The words that `CallApp` pushes first. -/
def savedWords (c : Core) : List (BitVec 64) := callAppSaved.map c.reg

variable {lstar c}

theorem start_spec (hc : Ready c) : (start c).ended = none ∧
    AgreeOn (start c).core.mem (c.mem.pushAll (c.reg .rsp) (savedWords c)) (c.reg .rsp - 48) 56 ∧
    (start c).core.mem.load (c.reg .r9) = c.reg .rsp - 48 ∧
    (start c).core.regs.seg .cs = 0x23 ∧ (start c).core.regs.seg .ss = 0x1b ∧
    (start c).core.regs.rip = c.reg .rcx ∧ (start c).core.reg .rsp = c.reg .r8 ∧
    (start c).core.reg .rdi = c.reg .rdi ∧ (start c).core.reg .rsi = c.reg .rsi := by
  let d : Core := { c.setReg .rsp (c.reg .rsp - 48) with mem := c.mem.pushAll (c.reg .rsp) (savedWords c) }
  let ops : List CallInstr :=
    [.plain (.store ⟨.r9, 0⟩ .rsp), push .rdx, push .r8, .add .rdx 8, push .rdx, push .rcx]
  let words := [c.reg .rdx, c.reg .r8, c.reg .rdx + 8, c.reg .rcx]
  have hrun : (start c).core = (d.runCalls ops).farReturn := by
    have hsaved : c.runCalls (callAppSaved.map push) = d := Core.runCalls_push (by decide)
    rw [start, callApp, Core.runCalls_append, hsaved]
    rfl
  have hmem : (d.runCalls ops).mem =
      ((c.mem.pushAll (c.reg .rsp) (savedWords c)).store (c.reg .r9) (c.reg .rsp - 48)).pushAll (c.reg .rsp - 48)
        words := by
    simp [d, ops, words, push, Core.runCalls, Core.execCall, Core.exec, Core.push, Core.addr, Core.operand,
      Core.setReg, Core.reg, pushAll, Core.setRflags]
  have hrsp : (d.runCalls ops).reg .rsp = c.reg .rsp - 80 := by
    simp [d, ops, push, Core.runCalls, Core.execCall, Core.exec, Core.push, Core.addr, Core.operand, Core.setReg,
      Core.reg, Core.setRflags]
    bv_omega
  have hregs : (d.runCalls ops).regs.seg .cs = c.regs.seg .cs ∧ (d.runCalls ops).reg .rdi = c.reg .rdi ∧
      (d.runCalls ops).reg .rsi = c.reg .rsi := by
    simp [d, ops, push, Core.runCalls, Core.execCall, Core.exec, Core.push, Core.addr, Core.operand, Core.setReg,
      Core.reg, Core.setRflags]
  generalize d.runCalls ops = e at *
  have hframe : ∀ k < 4, e.mem.load (c.reg .rsp - 80 + BitVec.ofNat 64 (8 * k)) = words.getD (3 - k) 0 := by
    intro k hk
    have hlen : words.length = 4 := rfl
    have haddr : c.reg .rsp - 80 = c.reg .rsp - 48 - BitVec.ofNat 64 (8 * words.length) := by
      rw [hlen]
      bv_omega
    rw [hmem, haddr, List.getD_eq_getElem _ _ (by omega)]
    exact load_pushAll_base hk (by rw [hlen]; decide)
  have hrip : e.mem.load (c.reg .rsp - 80) = c.reg .rcx := by simpa [words] using hframe 0 (by decide)
  have hcs : e.mem.load (c.reg .rsp - 80 + 8) = c.reg .rdx + 8 := hframe 1 (by decide)
  have hsp : e.mem.load (c.reg .rsp - 80 + 16) = c.reg .r8 := hframe 2 (by decide)
  have hss : e.mem.load (c.reg .rsp - 80 + 24) = c.reg .rdx := hframe 3 (by decide)
  have hsel : (c.reg .rdx + 8).setWidth 16 = (0x23 : BitVec 16) := by
    rw [BitVec.setWidth_add _ _ (by decide), hc.ss]
    rfl
  have hring : ¬ ((0x23 : BitVec 16) &&& 3 = e.regs.seg .cs &&& 3) := by
    rw [hregs.1, hc.cs]
    decide
  simp only [hrun, Core.farReturn, hrsp, hrip, hcs, hsp, hss, hsel, hc.ss, if_neg hring]
  refine ⟨rfl, fun i hi => ?_, ?_, rfl, rfl, rfl, ?_, ?_, ?_⟩
  · refine (congrFun hmem _).trans ((pushAll_apply ?_).trans (write_of_le (hc.apart.le_sub ?_)))
    · show 32 ≤ _
      bv_omega
    · bv_omega
  · refine (congrArg (load · (c.reg .r9)) hmem).trans
      (Eq.trans (load_congr (agreeOn_pushAll fun i hi => ?_)) load_store)
    have hclear := hc.apart i hi
    show 32 ≤ _
    bv_omega
  · simp [Core.setReg, Core.setSeg, Core.reg]
  · rw [← hregs.2.1]
    simp [Core.setReg, Core.setSeg, Core.reg]
  · rw [← hregs.2.2]
    simp [Core.setReg, Core.setSeg, Core.reg]

/-- The frame of `CallApp` and `os_stack_ptr_` are as `CallApp` has left them. -/
def Kept (c : Core) (m : X86.Memory) : Prop := ∀ x, appFrame c x = true → m x = (start c).core.mem x

namespace Kept

variable {m : X86.Memory}

theorem agreeOn (h : Kept c m) : AgreeOn m (start c).core.mem (c.reg .rsp - 48) 56 := fun i hi =>
  h _ (Bool.or_eq_true_iff.mpr (.inl (decide_eq_true ((add_sub_toNat (by omega)).trans_lt hi))))

theorem load_ptr (h : Kept c m) (hc : Ready c) : m.load (c.reg .r9) = c.reg .rsp - 48 :=
  (load_congr fun i hi => h _ (Bool.or_eq_true_iff.mpr
    (.inr (decide_eq_true ((add_sub_toNat (by omega)).trans_lt hi))))).trans (start_spec hc).2.2.1

/-- What `ExitApp` takes from the stack. -/
theorem load_frame (h : Kept c m) (hc : Ready c) :
    (∀ k < 6, m.load (c.reg .rsp - 48 + BitVec.ofNat 64 (8 * k)) = (savedWords c).getD (5 - k) 0) ∧
    m.load (c.reg .rsp - 48 + 48) = c.mem.load (c.reg .rsp) := by
  have hagree : AgreeOn m (c.mem.pushAll (c.reg .rsp) (savedWords c)) (c.reg .rsp - 48) 56 := fun i hi =>
    (h.agreeOn i hi).trans ((start_spec hc).2.1 i hi)
  refine ⟨fun k hk => ?_, ?_⟩
  · have hlen : (savedWords c).length = 6 := rfl
    have hbase := @load_pushAll_base c.mem (c.reg .rsp) (savedWords c) k (by omega) (by rw [hlen]; decide)
    rw [← List.getD_eq_getElem _ 0, hlen] at hbase
    refine (load_congr fun i hi => ?_).trans hbase
    have hword := hagree (8 * k + i) (by omega)
    rwa [BitVec.ofNat_add, ← BitVec.add_assoc] at hword
  · rw [BitVec.sub_add_cancel]
    refine load_congr fun i hi => ?_
    have hword := hagree (48 + i) (by omega)
    have haddr : c.reg .rsp - 48 + BitVec.ofNat 64 (48 + i) = c.reg .rsp + BitVec.ofNat 64 i := by bv_omega
    rw [haddr] at hword
    refine hword.trans (pushAll_apply ?_)
    show 48 ≤ _
    bv_omega

end Kept

/-- `CallApp` has returned to its caller. -/
structure Returned (c core : Core) : Prop where
  saved : ∀ r, calleeSaved r = true → r ≠ .rsp → core.reg r = c.reg r
  rsp : core.reg .rsp = c.reg .rsp + 8
  rip : core.regs.rip = c.mem.load (c.reg .rsp)

theorem returned_exitApp {core : Core} (hc : Ready c) (h : Kept c core.mem)
    (hrdi : core.reg .rdi = c.reg .rsp - 48) :
    Returned c (core.runCalls exitApp) ∧
      ((core.runCalls exitApp).reg .rax).setWidth 32 = (core.reg .rsi).setWidth 32 := by
  let d : Core := (core.setReg .rsp (core.reg .rdi)).setReg .rax (((core.reg .rsi).setWidth 32).setWidth 64)
  have hd : core.runCalls [.plain (.mov .rsp .rdi), .mov32 .rax .rsi] = d := rfl
  have hrsp : d.reg .rsp = c.reg .rsp - 48 := hrdi
  have hmem : d.mem = core.mem := rfl
  obtain ⟨gpr, hrun, hsp, hother, hloaded⟩ :=
    @Core.runCalls_pop d callAppSaved.reverse (by decide) (by decide)
  obtain ⟨hwords, hret⟩ := h.load_frame hc
  have hret' : core.runCalls exitApp = ({ d with regs := { d.regs with gpr } } : Core).execCall .ret := by
    rw [exitApp, Core.runCalls_append, Core.runCalls_append, hd, hrun]
    rfl
  rw [hrsp] at hsp hloaded
  rw [hmem] at hloaded
  rw [hret']
  refine ⟨⟨fun r hr hne => ?_, ?_, ?_⟩, ?_⟩
  · rw [Core.reg_ret hne]
    have hword : ∀ k (hk : k < 6), gpr callAppSaved.reverse[k] = (savedWords c).getD (5 - k) 0 := fun k hk =>
      (hloaded k hk).trans (hwords k hk)
    cases r with
    | rbx => exact hword 5 (by decide)
    | rbp => exact hword 4 (by decide)
    | r12 => exact hword 3 (by decide)
    | r13 => exact hword 2 (by decide)
    | r14 => exact hword 1 (by decide)
    | r15 => exact hword 0 (by decide)
    | rsp => exact absurd rfl hne
    | _ => cases hr
  · rw [Core.rsp_ret]
    show gpr .rsp + 8 = _
    rw [hsp]
    show _ + 48 + 8 = _
    bv_omega
  · show core.mem.load (gpr .rsp) = _
    rw [hsp]
    exact hret
  · have hrax : gpr .rax = ((core.reg .rsi).setWidth 32).setWidth 64 := hother .rax (by decide) (by decide)
    rw [Core.reg_ret (by decide)]
    refine (congrArg _ hrax).trans ?_
    ext i hi
    simp

/-! ## System calls -/

/-- No byte that is kept is in the half of the application, or in the 16 bytes below the frame. -/
theorem Ready.frame (hc : Ready c) {x : BitVec 64} (hx : appFrame c x = true) :
    x.toNat < appHalf ∧ 16 ≤ (x - (c.reg .rsp - 48 - 16)).toNat := by
  have hstack := hc.stack
  have hptr := hc.ptr
  rcases Bool.or_eq_true_iff.mp hx with h | h
  · have h := of_decide_eq_true h
    simp only [appHalf] at *
    constructor <;> bv_omega
  · have h := of_decide_eq_true h
    have hclear := hc.apart (x - c.reg .r9).toNat h
    have haddr : c.reg .r9 + (x - c.reg .r9) = x := by bv_omega
    rw [BitVec.ofNat_toNat, BitVec.setWidth_eq, haddr] at hclear
    simp only [appHalf] at *
    constructor <;> bv_omega

/-- What `SyscallEntry` saves on the stack of the application. -/
def entryWords (core : Core) : List (BitVec 64) :=
  [core.reg .rbp, core.regs.rip + 2, core.regs.rflags, core.reg .rax]

/-- The number in `eax`. -/
def callNumber (core : Core) : BitVec 64 := core.reg .rax &&& 0x7fffffff

theorem toNat_callNumber (core : Core) : (callNumber core).toNat = (core.reg .rax).toNat % 2 ^ 31 := by
  have hmask : (0x7fffffff : BitVec 64).toNat = 2 ^ 31 - 1 := by decide
  rw [callNumber, BitVec.toNat_and, hmask, Nat.and_two_pow_sub_one_eq_mod]

theorem callNumber_exit {core : Core} (h : (core.reg .rax).setWidth 32 = (0x80000002 : BitVec 32)) :
    callNumber core = 2 := by
  have hlow := congrArg BitVec.toNat h
  rw [BitVec.toNat_setWidth] at hlow
  refine BitVec.eq_of_toNat_eq ((toNat_callNumber core).trans ?_)
  change _ % _ = 0x80000002 at hlow
  show _ = 2
  omega

theorem entrySave_spec (core : Core) :
    let e := (core.syscall syscallStar lstar 0).runCalls syscallEntrySave
    let al := (core.reg .rsp - 32) &&& ~~~(0xf : BitVec 64)
    e.mem = (core.mem.pushAll (core.reg .rsp) (entryWords core)).pushAll al [callNumber core, core.reg .rdx] ∧
      e.reg .rsp = al - 16 ∧ e.reg .rbp = core.reg .rsp - 32 ∧ e.reg .rcx = core.reg .r10 ∧
      (∀ r ∈ [Reg.rdi, .rsi, .rdx, .r8, .r9, .rbx, .r12, .r13, .r14, .r15], e.reg r = core.reg r) ∧
      e.regs.seg .cs = 8 ∧ e.regs.seg .ss = 16 := by
  have hnumber : (((core.reg .rax).setWidth 32 &&& 0x7fffffff).setWidth 64) = callNumber core := by
    have hmask : (0x7fffffff : BitVec 32).toNat = 2 ^ 31 - 1 := by decide
    refine BitVec.eq_of_toNat_eq ?_
    rw [toNat_callNumber, BitVec.toNat_setWidth, BitVec.toNat_and, BitVec.toNat_setWidth, hmask,
      Nat.and_two_pow_sub_one_eq_mod]
    omega
  have hfour : ∀ x : BitVec 64, x - 8#64 - 8#64 - 8#64 - 8#64 = x - 32#64 := fun x => by bv_omega
  have htwo : ∀ x : BitVec 64, x - 8#64 - 8#64 = x - 16#64 := fun x => by bv_omega
  refine ⟨?_, ?_, ?_, ?_, ?_, rfl, rfl⟩
  all_goals
    simp [syscallEntrySave, Core.syscall, push, Core.runCalls, Core.execCall, Core.exec, Core.push, Core.operand,
      Core.setReg, Core.reg, Core.setRflags, entryWords, pushAll, ← hnumber, hfour]
  exact htwo _

theorem entrySwitch_spec {f : Core} {w₁ w₂ : BitVec 64} (hw₁ : f.mem.load (f.reg .rsp) = w₁)
    (hw₂ : f.mem.load (f.reg .rsp + 8) = w₂)
    (hclear : ∀ i < 16, 16 ≤ (f.reg .rsp + BitVec.ofNat 64 i - (f.reg .rax - 16)).toNat) :
    let g := f.runCalls syscallEntrySwitch
    g.mem = (f.mem.store (f.reg .rax - 16) w₁).store (f.reg .rax - 8) w₂ ∧
      g.reg .rdx = w₁ ∧ g.reg .rax = w₂ ∧ g.reg .rsp = f.reg .rax &&& ~~~0xf ∧
      (∀ r, r ≠ .rdx → r ≠ .rax → r ≠ .rsp → g.reg r = f.reg r) ∧ g.regs.seg = f.regs.seg := by
  let m := (f.mem.store (f.reg .rax - 16) w₁).store (f.reg .rax - 8) w₂
  have hw₂' : (f.mem.store (f.reg .rax - 16) w₁).load (f.reg .rsp + 8) = w₂ := by
    refine Eq.trans (load_congr fun i hi => write_of_le ?_) hw₂
    have hi := hclear (8 + i) (by omega)
    rw [BitVec.ofNat_add, ← BitVec.add_assoc] at hi
    exact (show 8 ≤ 16 by decide).trans hi
  have hm₁ : m.load (f.reg .rax - 16) = w₁ := by
    refine Eq.trans (load_congr fun i hi => write_of_le ?_) load_store
    bv_omega
  have hm₂ : m.load (f.reg .rax - 8) = w₂ := load_store
  have h16 : ∀ a : BitVec 64, a + 18446744073709551600#64 = a - 16#64 := fun a => by bv_omega
  have h8 : ∀ a : BitVec 64, a + 18446744073709551608#64 = a - 8#64 := fun a => by bv_omega
  have hpop : ∀ a : BitVec 64, a - 16#64 + 8#64 = a - 8#64 := fun a => by bv_omega
  simp only [m, Core.reg, BitVec.ofNat_eq_ofNat] at hw₁ hw₂' hm₁ hm₂
  refine ⟨?_, ?_, ?_, ?_, fun r hdx hax hsp => ?_, rfl⟩
  all_goals
    simp [syscallEntrySwitch, Core.runCalls, Core.execCall, Core.exec, Core.addr, Core.pop, Core.setReg, Core.reg,
      Core.setRflags, *]

/-- The function of the system call begins: it has the arguments of the application, and the stack of the task with
its alignment. -/
structure Entered (c core core' : Core) : Prop where
  args : ∀ r ∈ [Reg.rdi, .rsi, .rdx, .r8, .r9], core'.reg r = core.reg r
  arg4 : core'.reg .rcx = core.reg .r10
  number : core'.reg .rax = callNumber core
  rsp : core'.reg .rsp = (c.reg .rsp - 48) &&& ~~~0xf
  ring : core'.regs.seg .cs = 8 ∧ core'.regs.seg .ss = 16
  saved : ∀ r ∈ [Reg.rbx, .r12, .r13, .r14, .r15], core'.reg r = core.reg r
  rbp : core'.reg .rbp = core.reg .rsp - 32
  words : ∀ i < 32, core'.mem (core.reg .rsp - 32 + BitVec.ofNat 64 i) =
    core.mem.pushAll (core.reg .rsp) (entryWords core) (core.reg .rsp - 32 + BitVec.ofNat 64 i)
  kept : Kept c core'.mem

theorem entered {core own : Core} (hc : Ready c) (h : Kept c core.mem)
    (hsp : appHalf + 2048 ≤ (core.reg .rsp).toNat) : Entered c core (enter lstar c core own) := by
  obtain ⟨hmem, hrsp, hrbp, hrcx, hregs, hcs, hss⟩ := @entrySave_spec lstar core
  have hframe := fun x hx => hc.frame (x := x) hx
  have hstack := hc.stack
  have hal := toNat_align (core.reg .rsp - 32)
  rw [enter]
  generalize (core.syscall syscallStar lstar 0).runCalls syscallEntrySave = e at *
  -- what the entry writes on the stack of the application is in its half
  have hlow : ∀ x : BitVec 64, x.toNat < appHalf → e.mem x = core.mem x := by
    intro x hx
    rw [hmem]
    simp only [appHalf] at *
    refine (pushAll_apply ?_).trans (pushAll_apply ?_)
    · show 16 ≤ _
      bv_omega
    · show 32 ≤ _
      bv_omega
  have hptr : e.mem.load (c.reg .r9) = c.reg .rsp - 48 := by
    refine (load_congr fun i hi => hlow _ ?_).trans (h.load_ptr hc)
    have hptr := hc.ptr
    simp only [appHalf] at *
    bv_omega
  have hal := toNat_align (core.reg .rsp - 32)
  obtain ⟨al, hale⟩ : ∃ al, al = (core.reg .rsp - 32) &&& ~~~(0xf : BitVec 64) := ⟨_, rfl⟩
  rw [← hale] at hmem hrsp hal
  let f := getCurrentTaskOSStackPointer c e own
  have hf : ∀ x, 1024 ≤ (al - 16 - 1 - x).toNat → f.mem x = e.mem x := fun x hx => by
    simp only [f, getCurrentTaskOSStackPointer, hrsp]
    exact if_neg (Nat.not_lt.mpr hx)
  have hfax : f.reg .rax = c.reg .rsp - 48 := (Function.update_self Reg.rax _ e.regs.gpr).trans hptr
  have hfreg : ∀ r, r ≠ .rax → f.reg r = e.reg r := fun r hr => Function.update_of_ne hr _ e.regs.gpr
  have hfsp : f.reg .rsp = al - 16 := (hfreg _ (by decide)).trans hrsp
  have hpushed : ∀ k < 2, f.mem.load (al - 16 + BitVec.ofNat 64 (8 * k)) =
      [callNumber core, core.reg .rdx].getD (1 - k) 0 := by
    intro k hk
    have hlen : [callNumber core, core.reg .rdx].length = 2 := rfl
    have hbase := @load_pushAll_base (core.mem.pushAll (core.reg .rsp) (entryWords core)) al
      [callNumber core, core.reg .rdx] k hk (by rw [hlen]; decide)
    rw [← hmem, ← List.getD_eq_getElem _ 0, hlen] at hbase
    refine Eq.trans (load_congr fun i hi => hf _ ?_) hbase
    simp only [appHalf] at *
    bv_omega
  have hstack := hc.stack
  have hw₁ : f.mem.load (f.reg .rsp) = core.reg .rdx := by
    rw [hfsp]
    simpa using hpushed 0 (by decide)
  have hw₂ : f.mem.load (f.reg .rsp + 8) = callNumber core := by
    rw [hfsp]
    exact hpushed 1 (by decide)
  have hapart : ∀ i < 16, 16 ≤ (f.reg .rsp + BitVec.ofNat 64 i - (f.reg .rax - 16)).toNat := by
    intro i hi
    rw [hfsp, hfax]
    simp only [appHalf] at *
    bv_omega
  obtain ⟨hgmem, hgdx, hgax, hgsp, hgreg, hgseg⟩ := entrySwitch_spec hw₁ hw₂ hapart
  rw [hfax] at hgmem hgsp
  -- the two words on the stack of the task are below the frame
  have hg : ∀ x, 16 ≤ (x - (c.reg .rsp - 48 - 16)).toNat → (f.runCalls syscallEntrySwitch).mem x = f.mem x := by
    intro x hx
    rw [hgmem]
    refine (write_of_le ?_).trans (write_of_le ?_)
    · bv_omega
    · omega
  have hreg : ∀ r ∈ [Reg.rdi, .rsi, .rdx, .r8, .r9, .rbx, .r12, .r13, .r14, .r15],
      (f.runCalls syscallEntrySwitch).reg r = core.reg r := by
    intro r hr
    by_cases hdx : r = .rdx
    · rw [hdx, hgdx]
    · have hne : r ≠ .rax ∧ r ≠ .rsp := by
        constructor <;> (rintro rfl; exact absurd hr (by decide))
      rw [hgreg r hdx hne.1 hne.2, hfreg r hne.1, hregs r hr]
  have hargs : ∀ r ∈ [Reg.rdi, .rsi, .rdx, .r8, .r9],
      r ∈ [Reg.rdi, .rsi, .rdx, .r8, .r9, .rbx, .r12, .r13, .r14, .r15] := by decide
  have hkeeps : ∀ r ∈ [Reg.rbx, .r12, .r13, .r14, .r15],
      r ∈ [Reg.rdi, .rsi, .rdx, .r8, .r9, .rbx, .r12, .r13, .r14, .r15] := by decide
  refine ⟨fun r hr => hreg r (hargs r hr), ?_, hgax, hgsp, ?_, fun r hr => hreg r (hkeeps r hr), ?_, fun i hi => ?_,
    fun x hx => ?_⟩
  · rw [hgreg _ (by decide) (by decide) (by decide), hfreg _ (by decide), hrcx]
  · exact ⟨(congrFun hgseg _).trans hcs, (congrFun hgseg _).trans hss⟩
  · rw [hgreg _ (by decide) (by decide) (by decide), hfreg _ (by decide), hrbp]
  · refine (hg _ ?_).trans ((hf _ ?_).trans ((congrFun hmem _).trans (pushAll_apply ?_)))
    · simp only [appHalf] at *
      bv_omega
    · simp only [appHalf] at *
      bv_omega
    · show 16 ≤ _
      simp only [appHalf] at *
      bv_omega
  · obtain ⟨hhalf, hbelow⟩ := hc.frame hx
    refine (hg x hbelow).trans ((hf x ?_).trans ((hlow x hhalf).trans (h x hx)))
    simp only [appHalf] at *
    bv_omega

/-- The application goes on behind its `syscall`, with the result of the function. -/
structure Resumed (core result core' : Core) : Prop where
  rip : core'.regs.rip = core.regs.rip + 2
  saved : ∀ r, calleeSaved r = true → core'.reg r = core.reg r
  rflags : core'.regs.rflags = core.regs.rflags &&& 0x3c7fd7 ||| 2
  result : core'.reg .rax = result.reg .rax ∧ core'.reg .rdx = result.reg .rdx
  ring : core'.regs.seg .cs = 0x23 ∧ core'.regs.seg .ss = 0x1b

theorem leave_spec {core result : Core} {arg : BitVec 32} (hrbp : result.reg .rbp = core.reg .rsp - 32)
    (hsaved : ∀ r ∈ [Reg.rbx, .r12, .r13, .r14, .r15], result.reg r = core.reg r)
    (hwords : ∀ i < 32, result.mem (core.reg .rsp - 32 + BitVec.ofNat 64 i) =
      core.mem.pushAll (core.reg .rsp) (entryWords core) (core.reg .rsp - 32 + BitVec.ofNat 64 i)) :
    if (core.reg .rax).setWidth 32 = (0x80000002 : BitVec 32) then
      ∃ e : Core, leave result arg = ⟨e.runCalls exitApp, some arg⟩ ∧ e.mem = result.mem ∧
        e.reg .rdi = result.reg .rax ∧ (e.reg .rsi).setWidth 32 = (result.reg .rdx).setWidth 32
    else (leave result arg).ended = none ∧ (leave result arg).core.mem = result.mem ∧
      Resumed core result (leave result arg).core := by
  have hload : ∀ k < 4, result.mem.load (core.reg .rsp - 32 + BitVec.ofNat 64 (8 * k)) =
      (entryWords core).getD (3 - k) 0 := by
    intro k hk
    have hlen : (entryWords core).length = 4 := rfl
    have hbase := @load_pushAll_base core.mem (core.reg .rsp) (entryWords core) k (by omega) (by rw [hlen]; decide)
    rw [← List.getD_eq_getElem _ 0, hlen] at hbase
    refine Eq.trans (load_congr fun i hi => ?_) hbase
    have hword := hwords (8 * k + i) (by omega)
    rwa [BitVec.ofNat_add, ← BitVec.add_assoc] at hword
  obtain ⟨d, hd⟩ : ∃ d : Core, d = result.runCalls [.plain (.mov .rsp .rbp), .pop .rsi] := ⟨_, rfl⟩
  have hpop : d = (result.setReg .rsp (result.reg .rbp)).pop .rsi := hd
  have hmem : d.mem = result.mem := by rw [hd]; rfl
  have hsp : d.reg .rsp = core.reg .rsp - 24 := by
    rw [hpop, Core.rsp_pop (by decide), Core.reg_setReg, hrbp]
    bv_omega
  have hsi : d.reg .rsi = core.reg .rax := by
    rw [hpop, Core.pop, Core.reg_setReg, Core.reg_setReg, hrbp]
    have hword := hload 0 (by decide)
    rwa [Nat.mul_zero, BitVec.add_zero] at hword
  have hother : ∀ r, r ≠ .rsp → r ≠ .rsi → d.reg r = result.reg r := by
    intro r hr hr'
    rw [hpop, Core.reg_pop hr' hr, Core.reg_setReg_of_ne hr]
  simp only [leave, ← hd, hsi]
  split
  · refine ⟨_, rfl, hmem, ?_, ?_⟩
    · refine Eq.trans ?_ (hother .rax (by decide) (by decide))
      simp [Core.runCalls, Core.execCall, Core.exec, Core.setReg, Core.reg]
    · rw [← hother .rdx (by decide) (by decide)]
      simp [Core.runCalls, Core.execCall, Core.exec, Core.setReg, Core.reg]
  · obtain ⟨gpr, hrun, hrsp, hkept, hloaded⟩ := @Core.runCalls_pop d [.r11, .rcx, .rbp] (by decide) (by decide)
    rw [List.map_cons, List.map_cons, List.map_singleton] at hrun
    rw [hrun]
    have hword : ∀ k (hk : k < 3), gpr [Reg.r11, .rcx, .rbp][k] = (entryWords core).getD (2 - k) 0 := by
      intro k hk
      have haddr : core.reg .rsp - 24 + BitVec.ofNat 64 (8 * k) =
          core.reg .rsp - 32 + BitVec.ofNat 64 (8 * (k + 1)) := by
        bv_omega
      have hstack := hload (k + 1) (by omega)
      rw [hloaded k hk, hsp, hmem, haddr, hstack]
      congr 1
      omega
    have hgpr : ∀ r, r ∉ [Reg.rsp, .rsi, .r11, .rcx, .rbp] → gpr r = result.reg r := by
      intro r hr
      simp only [List.mem_cons, List.not_mem_nil, not_or, or_false] at hr
      rw [hkept r hr.1 (by simp [hr]), hother r hr.1 hr.2.1]
    refine ⟨rfl, hmem, hword 1 (by decide), fun r hr => ?_, ?_, ⟨hgpr _ (by decide), hgpr _ (by decide)⟩, rfl, rfl⟩
    · show gpr r = core.reg r
      cases r with
      | rsp =>
        rw [hrsp, hsp]
        show _ + 24 = _
        bv_omega
      | rbp => exact hword 2 (by decide)
      | rbx | r12 | r13 | r14 | r15 => exact (hgpr _ (by decide)).trans (hsaved _ (by decide))
      | _ => cases hr
    · have hflags : gpr .r11 = core.regs.rflags := hword 0 (by decide)
      show gpr .r11 &&& 0x3c7fd7 ||| 2 = _
      rw [hflags]

theorem syscallFunction_spec (c core out : Core) :
    (∀ r ∈ [Reg.rbp, .rbx, .r12, .r13, .r14, .r15], (syscallFunction c core out).reg r = core.reg r) ∧
    (∀ x, appFrame c x = true ∨ (x - core.reg .rbp).toNat < 32 → (syscallFunction c core out).mem x = core.mem x) ∧
    (core.reg .rax = 2 → (syscallFunction c core out).reg .rax = core.mem.load (c.reg .r9) ∧
      ((syscallFunction c core out).reg .rdx).setWidth 32 = (core.reg .rdi).setWidth 32) := by
  have hne : ∀ r ∈ [Reg.rbp, .rbx, .r12, .r13, .r14, .r15], r ≠ .rax ∧ r ≠ .rdx ∧ calleeSaved r = true := by decide
  refine ⟨fun r hr => ?_, fun x hx => ?_, fun h => ⟨?_, ?_⟩⟩
  · obtain ⟨hax, hdx, hsaved⟩ := hne r hr
    have hcall : ∀ kept, (core.call kept out).reg r = core.reg r := fun _ => if_pos hsaved
    simp only [syscallFunction]
    split
    · rw [Core.reg_setReg_of_ne hdx, Core.reg_setReg_of_ne hax, hcall]
    · exact hcall _
  · have hkept : (appFrame c x || decide ((x - core.reg .rbp).toNat < 32)) = true := by simpa using hx
    simp only [syscallFunction]
    split <;> exact if_pos hkept
  · simp only [syscallFunction, if_pos h]
    rw [Core.reg_setReg_of_ne (by decide), Core.reg_setReg]
  · simp only [syscallFunction, if_pos h]
    rw [Core.reg_setReg]
    exact BitVec.setWidth_append_eq_right

theorem killApp_spec {core : Core} (hc : Ready c) (h : Kept c core.mem) (out : Core) :
    Kept c (killApp c core out).mem ∧ (killApp c core out).reg .rdi = c.reg .rsp - 48 ∧
      ((killApp c core out).reg .rsi).setWidth 32 = sigsegvStatus := by
  have hkept : Kept c fun x => if appFrame c x then core.mem x else out.mem x := fun x hx =>
    (if_pos hx).trans (h x hx)
  refine ⟨hkept, ?_, ?_⟩
  · rw [killApp, Core.reg_setReg_of_ne (by decide), Core.reg_setReg]
    exact hkept.load_ptr hc
  · rw [killApp, Core.reg_setReg]
    decide

/-! ## The runs -/

/-- What holds while the application runs, and when `CallApp` has returned. -/
def Inv (c : Core) (s : AppCall) : Prop :=
  match s.ended with
  | none => Kept c s.core.mem ∧ s.core.regs.seg .cs = 0x23 ∧ s.core.regs.seg .ss = 0x1b
  | some status => Returned c s.core ∧ (s.core.reg .rax).setWidth 32 = status

/-- One system call. -/
theorem syscall_spec {core own out : Core} (hc : Ready c) (h : Kept c core.mem)
    (hsp : appHalf + 2048 ≤ (core.reg .rsp).toNat) :
    let s' := systemCall lstar c core own out
    if (core.reg .rax).setWidth 32 = (0x80000002 : BitVec 32) then
      s'.ended = some ((core.reg .rdi).setWidth 32) ∧ Returned c s'.core ∧
        (s'.core.reg .rax).setWidth 32 = (core.reg .rdi).setWidth 32
    else s'.ended = none ∧ Kept c s'.core.mem ∧ Resumed core (functionResult lstar c core own out) s'.core := by
  simp only [systemCall]
  have henter := @entered lstar c core own hc h hsp
  obtain ⟨hregs, hmem, hexit⟩ := syscallFunction_spec c (enter lstar c core own) out
  rw [← functionResult] at hregs hmem hexit
  have hkept : Kept c (functionResult lstar c core own out).mem := fun x hx =>
    (hmem x (.inl hx)).trans (henter.kept x hx)
  have hleave := @leave_spec core (functionResult lstar c core own out) ((core.reg .rdi).setWidth 32)
    ((hregs _ (by decide)).trans henter.rbp)
    (fun r hr => (hregs r (List.mem_cons_of_mem _ hr)).trans (henter.saved r hr)) fun i hi => by
      refine (hmem _ (.inr ?_)).trans (henter.words i hi)
      rw [henter.rbp, add_sub_toNat (by omega)]
      exact hi
  split
  · rename_i hnumber
    rw [if_pos hnumber] at hleave
    obtain ⟨e, heq, hemem, hrdi, hrsi⟩ := hleave
    have htwo : (enter lstar c core own).reg .rax = 2 := by
      rw [henter.number]
      exact callNumber_exit hnumber
    obtain ⟨hax, hdx⟩ := hexit htwo
    have hptr : e.reg .rdi = c.reg .rsp - 48 := by rw [hrdi, hax, henter.kept.load_ptr hc]
    obtain ⟨hret, hstatus⟩ := returned_exitApp hc (hemem ▸ hkept) hptr
    rw [heq]
    refine ⟨rfl, hret, hstatus.trans (hrsi.trans (hdx.trans ?_))⟩
    rw [henter.args _ (by decide)]
  · rename_i hnumber
    rw [if_neg hnumber] at hleave
    obtain ⟨hended, hlmem, hresumed⟩ := hleave
    exact ⟨hended, hlmem ▸ hkept, hresumed⟩

namespace Inv

variable {s s' : AppCall}

theorem start (hc : Ready c) : Inv c (start c) :=
  ⟨fun _ _ => rfl, (start_spec hc).2.2.2.1, (start_spec hc).2.2.2.2.1⟩

theorem of_running (h : Inv c s) (hended : s.ended = none) :
    Kept c s.core.mem ∧ s.core.regs.seg .cs = 0x23 ∧ s.core.regs.seg .ss = 0x1b := by
  simpa only [Inv, hended] using h

theorem running (hended : s.ended = none) (hkept : Kept c s.core.mem) (hcs : s.core.regs.seg .cs = 0x23)
    (hss : s.core.regs.seg .ss = 0x1b) : Inv c s := by
  simp only [Inv, hended]
  exact ⟨hkept, hcs, hss⟩

theorem returned {status : BitVec 32} (hended : s.ended = some status) (hret : Returned c s.core)
    (hrax : (s.core.reg .rax).setWidth 32 = status) : Inv c s := by
  simp only [Inv, hended]
  exact ⟨hret, hrax⟩

theorem step (hc : Ready c) (H : Inv c s) (h : AppCall.step lstar c s e = some s') : Inv c s' := by
  obtain ⟨core, ended⟩ := s
  cases ended with
  | some status => cases h
  | none =>
    obtain ⟨hkept, hcs, hss⟩ := H.of_running rfl
    cases e with
    | app regs mem =>
      cases h
      refine running rfl (fun x hx => ?_) hcs hss
      exact (if_pos (hc.frame hx).1).trans (hkept x hx)
    | others mem =>
      cases h
      refine running rfl (fun x hx => ?_) hcs hss
      exact (if_pos hx).trans (hkept x hx)
    | syscall own out =>
      obtain ⟨⟨-, hsp⟩, h⟩ := Option.ite_none_right_eq_some.mp h
      cases h
      have hcall := @syscall_spec lstar c core own out hc hkept hsp
      split at hcall
      · exact returned hcall.1 hcall.2.1 hcall.2.2
      · exact running hcall.1 hcall.2.1 hcall.2.2.ring.1 hcall.2.2.ring.2
    | fault out =>
      cases h
      obtain ⟨hkept', hrdi, hrsi⟩ := killApp_spec hc hkept out
      obtain ⟨hret, hstatus⟩ := returned_exitApp hc hkept' hrdi
      exact returned rfl hret (hstatus.trans hrsi)

theorem reachable (hc : Ready c) (h : (system lstar c).Reachable (AppCall.start c) s) : Inv c s :=
  h.invariant (fun _ _ _ H hs => H.step hc hs) (.start hc)

end Inv

end AppCall

end MikanOS
