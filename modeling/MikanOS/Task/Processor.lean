import MikanOS.Task.ContextFrames
import MikanOS.Task.System

/-! # The tasks share the processor

The task manager on a processor: the contexts are in its memory, and the routines that save and restore them are
run on it. -/

namespace MikanOS

open X86 X86.Memory TaskContext

namespace Cpu

variable {Ctx : Type} {cpu cpu' : Cpu Ctx} {e : Event Ctx} {u : Nat}

/-- The events that neither change the registers of the executing task nor make a task. -/
def IsKernelCall : Event Ctx → Bool
  | .run _ | .newTask _ => false
  | _ => true

/-- A context is written only when its task gives up the processor, and only loaded when it gets it back. -/
structure Moves (cpu cpu' : Cpu Ctx) : Prop where
  stays : ∀ u ∈ cpu.tm.tasks, u ≠ cpu.executing → u ∈ cpu'.tm.tasks
  owned : ∀ u ∈ cpu'.tm.tasks, u ∈ cpu.tm.tasks
  latestId : cpu'.tm.latestId = cpu.tm.latestId
  frame : ∀ u, u ≠ cpu.executing → (cpu'.tm.task u).context = (cpu.tm.task u).context
  loads : cpu'.executing ≠ cpu.executing → cpu'.regs = (cpu.tm.task cpu'.executing).context
  saves : cpu'.executing ≠ cpu.executing → cpu.executing ∈ cpu'.tm.tasks →
    (cpu'.tm.task cpu.executing).context = cpu.regs

/-- A switch that keeps the tasks. -/
theorem Switched.moves (h : Switched cpu cpu' cpu.regs) (htasks : cpu'.tm.tasks = cpu.tm.tasks)
    (hid : cpu'.tm.latestId = cpu.tm.latestId) : Moves cpu cpu' where
  stays := fun _ hu _ => htasks ▸ hu
  owned := fun _ hu => htasks ▸ hu
  latestId := hid
  frame := h.frame
  loads := h.loads
  saves := fun _ _ => h.saves

/-- An operation on other data of the tasks. -/
theorem Moves.of_context (htasks : cpu'.tm.tasks = cpu.tm.tasks) (hid : cpu'.tm.latestId = cpu.tm.latestId)
    (hexecuting : cpu'.executing = cpu.executing)
    (hcontext : ∀ u, (cpu'.tm.task u).context = (cpu.tm.task u).context) : Moves cpu cpu' where
  stays := fun _ hu _ => htasks ▸ hu
  owned := fun _ hu => htasks ▸ hu
  latestId := hid
  frame := fun u _ => hcontext u
  loads := fun h => absurd hexecuting h
  saves := fun h => absurd hexecuting h

theorem context_init (mainCtx idleCtx regs : Ctx) :
    ((Cpu.init mainCtx idleCtx regs).tm.task kIdleTask).context = idleCtx := rfl

theorem moves_sleep (H : cpu.tm.Sched cpu.executing) {t : Nat} (ht : t ≠ kIdleTask) : Moves cpu (cpu.sleep t) := by
  by_cases hself : t = cpu.executing
  · subst hself
    obtain ⟨hsw, hcalls, -⟩ := sleep_executing H ht
    exact hsw.moves hcalls.tasks hcalls.latestId
  · obtain ⟨hexecuting, hcontext⟩ := sleep_other H hself
    have htasks : (cpu.sleep t).tm.tasks = cpu.tm.tasks ∧ (cpu.sleep t).tm.latestId = cpu.tm.latestId := by
      cases hrun : (cpu.tm.task t).running with
      | false =>
        rw [sleep, if_pos hrun]
        exact ⟨rfl, rfl⟩
      | true =>
        rw [sleep_other_eq H hself hrun]
        exact ⟨rfl, rfl⟩
    exact .of_context htasks.1 htasks.2 hexecuting hcontext

theorem moves_finish (H : cpu.tm.Sched cpu.executing) (hidle : cpu.executing ≠ kIdleTask) (exitCode : Int) :
    Moves cpu (cpu.finish exitCode) := by
  obtain ⟨tm', heq, -, running, currentLevel, hfields⟩ := H.finishSelf hidle
  have hnot : cpu.executing ∉ cpu.tm.tasks.erase cpu.executing := H.tasks_nodup.not_mem_erase
  obtain ⟨tm, hfinish, htasks, hid, hcontext⟩ : ∃ tm : TaskManager Ctx,
      cpu.finish exitCode = { cpu with tm }.restoreContext tm.currentTask ∧
        tm.tasks = cpu.tm.tasks.erase cpu.executing ∧ tm.latestId = cpu.tm.latestId ∧
        ∀ u, (tm.task u).context = (cpu.tm.task u).context := by
    simp only [finish, heq]
    cases hw : tm'.finishWaiter cpu.executing with
    | none => exact ⟨_, rfl, by rw [hfields], by rw [hfields], fun u => by rw [hfields]⟩
    | some w =>
      refine ⟨_, rfl, ?_, ?_, fun u => ?_⟩
      · rw [TaskManager.wakeup_tasks, hfields]
      · rw [TaskManager.wakeup_latestId, hfields]
      · rw [(TaskManager.wakeup_frame ..).2.2.2.2.1, hfields]
  rw [hfinish]
  exact {
    stays := fun u hu hne => htasks ▸ (List.mem_erase_of_ne hne).mpr hu
    owned := fun u hu => List.mem_of_mem_erase (htasks ▸ hu)
    latestId := hid
    frame := fun u _ => hcontext u
    loads := fun _ => hcontext _
    saves := fun _ hmem => absurd (htasks ▸ hmem) hnot }

theorem moves_waitFinishLoop (H : cpu.tm.Sched cpu.executing) (hidle : cpu.executing ≠ kIdleTask) {w : WaitLoop}
    (hw : w.currentTask = cpu.executing) : Moves cpu (cpu.waitFinishLoop w).2 := by
  cases hcode : cpu.tm.finishTasks w.taskId with
  | some exitCode =>
    rw [waitFinishLoop_some hcode]
    exact .of_context rfl rfl rfl fun _ => rfl
  | none =>
    obtain ⟨cpu', heq, hsw, -, htasks, hid, -⟩ := waitFinishLoop_none H hidle hw hcode
    rw [heq]
    exact hsw.moves htasks hid

theorem moves_of_step (H : cpu.Inv) (h : cpu.step e = some cpu') (he : IsKernelCall e = true) : Moves cpu cpu' := by
  cases e with
  | run regs => cases he
  | newTask context => cases he
  | wakeup task level =>
    obtain ⟨-, rfl⟩ := by simpa only [step, Option.ite_none_right_eq_some, Option.some.injEq] using h
    exact .of_context (TaskManager.wakeup_tasks ..) (TaskManager.wakeup_latestId ..) rfl
      (TaskManager.wakeup_frame ..).2.2.2.2.1
  | sendMessage id msg =>
    cases h
    refine .of_context (TaskManager.sendMessage_tasks ..) (TaskManager.sendMessage_latestId ..) rfl fun u => ?_
    simp only [TaskManager.sendMessage]
    split
    · rw [(TaskManager.wakeup_frame ..).2.2.2.2.1]
      by_cases hu : u = id <;> simp [TaskManager.setTask, hu]
    · rfl
  | sleep task =>
    obtain ⟨⟨-, hidle⟩, rfl⟩ := by simpa only [step, Option.ite_none_right_eq_some, Option.some.injEq] using h
    exact moves_sleep H.sched hidle
  | switchTask =>
    cases h
    obtain ⟨hsw, hcalls, -⟩ := switchTask_spec H.sched cpu.regs
    exact hsw.moves hcalls.tasks hcalls.latestId
  | finish exitCode =>
    obtain ⟨⟨hidle, -⟩, rfl⟩ := by simpa only [step, Option.ite_none_right_eq_some, Option.some.injEq] using h
    exact moves_finish H.sched hidle exitCode
  | waitFinish taskId =>
    obtain ⟨⟨hidle, -⟩, rfl⟩ := by simpa only [step, Option.ite_none_right_eq_some, Option.some.injEq] using h
    exact moves_waitFinishLoop H.sched hidle H.sched.currentTask_eq
  | waitLoop =>
    obtain ⟨w, hw, rfl⟩ := Option.map_eq_some_iff.mp h
    obtain ⟨-, hidle, hself⟩ := H.loop _ w hw
    exact moves_waitFinishLoop H.sched hidle hself

/-- A new task that is woken at the level of the main task is the next one. -/
theorem executing_preempted {Ctx : Type} (mainCtx idleCtx r regs : Ctx) :
    ({ Cpu.init mainCtx idleCtx regs with
      tm := ((TaskManager.init mainCtx idleCtx).newTask r).wakeup 3 3 }.switchTask regs).executing = 3 := rfl

end Cpu

instance (m m' : X86.Memory) (a : BitVec 64) (n : Nat) : Decidable (AgreeOn m m' a n) :=
  inferInstanceAs (Decidable (∀ i < n, _))

instance (sp : BitVec 64) (n : Nat) (a : BitVec 64) (k : Nat) : Decidable (ClearOf sp n a k) :=
  inferInstanceAs (Decidable (∀ i < k, _))

/-- Two contexts do not overlap. -/
def Apart (a b : BitVec 64) : Prop := size ≤ (a - b).toNat ∧ size ≤ (b - a).toNat

instance (a b : BitVec 64) : Decidable (Apart a b) := inferInstanceAs (Decidable (_ ∧ _))

theorem Apart.le_sub {a b : BitVec 64} {i : Nat} (h : Apart a b) (hi : i < size) :
    size ≤ (a + BitVec.ofNat 64 i - b).toNat := by
  obtain ⟨hleft, hright⟩ := h
  simp only [size] at *
  bv_omega

/-- What is not in a context is in none of its parts. -/
theorem outside_context {x b : BitVec 64} (h : size ≤ (x - b).toNat) :
    (∀ j < 8 * 24, x ≠ b + BitVec.ofNat 64 j) ∧ 512 ≤ (x - (b + fxsaveOffset)).toNat ∧
      4 ≤ (x - (b + fxsaveOffset + 24)).toNat := by
  refine ⟨fun j hj heq => ?_, ?_, ?_⟩
  · rw [heq, add_sub_toNat (by omega), size] at h
    omega
  · simp only [size, fxsaveOffset] at *
    bv_omega
  · simp only [size, fxsaveOffset] at *
    bv_omega

/-- The task manager and the processor. `ctx` is the address of the `context_` of a task; the contexts in `cpu` are
those that the memory has to hold. -/
structure Processor where
  core : Core
  cpu : Cpu Regs
  ctx : Nat → BitVec 64

namespace Processor

/-- What happens next. The code of the kernel and of the applications is free between its calls, `core` and `out`
are what it leaves behind. -/
inductive Event where
  | run (core : Core)
  | newTask (addr stackEnd f data : BitVec 64)
  /-- A call of the task manager that switches with `SwitchContext`, or not at all. -/
  | call (e : Cpu.Event Regs)
  | finish (exitCode : Int)
  /-- `timeout` is what `Tick` returns. -/
  | timer (timeout : Bool) (out : Core)

/-- The calls that end in `SwitchContext` if they switch. -/
def UsesSwitchContext : Cpu.Event Regs → Bool
  | .wakeup .. | .sendMessage .. | .sleep _ | .waitFinish _ | .waitLoop => true
  | _ => false

/-- None of the contexts is among the `n` bytes below `sp`. -/
def StackClear (s : Processor) (sp : BitVec 64) (n : Nat) : Prop :=
  ∀ t ∈ s.cpu.tm.tasks, ClearOf sp n (s.ctx t) size

instance (s : Processor) (sp : BitVec 64) (n : Nat) : Decidable (s.StackClear sp n) :=
  inferInstanceAs (Decidable (∀ t ∈ s.cpu.tm.tasks, _))

/-- The contexts are private: nothing but the routines below writes to them. -/
def ContextsKept (s : Processor) (m m' : X86.Memory) : Prop := ∀ t ∈ s.cpu.tm.tasks, AgreeOn m m' (s.ctx t) size

instance (s : Processor) (m m' : X86.Memory) : Decidable (s.ContextsKept m m') :=
  inferInstanceAs (Decidable (∀ t ∈ s.cpu.tm.tasks, _))

variable (ist entry : BitVec 64)

/-- `IntHandlerLAPICTimer` up to its call, on the stack of the timer. -/
def timerCall (core : Core) : Core :=
  (core.interrupt ist entry kKernelCS (if core.regs.seg .cs = kUserCS then 0 else core.regs.seg .ss)).run
    intHandlerLAPICTimer

/-- The memory behind the copy of the context in `SwitchTask`, which is called on a timeout. -/
def savedMemory (s : Processor) (timeout : Bool) : X86.Memory :=
  let called := timerCall ist entry s.core
  if timeout then called.mem.copy (s.ctx s.cpu.tm.currentTask) (called.reg .rdi) size else called.mem

def step (s : Processor) : Event → Option Processor
  | .run core =>
    if s.ContextsKept s.core.mem core.mem then
      (s.cpu.step (.run core.regs)).map fun cpu => { s with core, cpu }
    else none
  | .newTask addr stackEnd f data =>
    if ∀ t ∈ s.cpu.tm.tasks, Apart (s.ctx t) addr then
      let id := s.cpu.tm.latestId + 1
      let cr3 := s.core.regs.cr3
      (s.cpu.step (.newTask (initRegs cr3 stackEnd f (BitVec.ofNat 64 id) data))).map fun cpu =>
        { core := { s.core with mem := initContext s.core.mem addr cr3 stackEnd f (BitVec.ofNat 64 id) data }
          cpu
          ctx := Function.update s.ctx id addr }
    else none
  | .call e =>
    if UsesSwitchContext e then do
      let cpu ← { s.cpu with regs := returned s.core }.step e
      if cpu.executing = s.cpu.executing then some { s with cpu := { cpu with regs := s.core.regs } }
      else if s.core.reg .rdi = s.ctx cpu.executing ∧ s.core.reg .rsi = s.ctx s.cpu.executing ∧
          s.StackClear (s.core.reg .rsp + 8) 48 then
        some { s with core := s.core.run switchContext, cpu }
      else none
    else none
  | .finish exitCode => do
    let cpu ← s.cpu.step (.finish exitCode)
    if s.core.reg .rdi = s.ctx cpu.executing ∧ s.StackClear (s.core.reg .rsp) 40 then
      some { s with core := s.core.run restoreContext, cpu }
    else none
  | .timer timeout out =>
    let called := timerCall ist entry s.core
    if s.StackClear (aligned ist) 752 ∧ s.ContextsKept (savedMemory ist entry s timeout) out.mem then do
      let cpu ← (if timeout then s.cpu.step .switchTask else some s.cpu)
      if cpu.executing = s.cpu.executing then
        if AgreeOn called.mem out.mem (aligned ist - 752) 752 then
          let core := (called.call (fun _ => false) out).runCalls handlerExit
          some { s with core, cpu := { cpu with regs := s.core.regs } }
        else none
      else if out.reg .rdi = s.ctx cpu.executing ∧ s.StackClear (out.reg .rsp) 40 then
        some { s with core := out.run restoreContext, cpu }
      else none
    else none

def system : Transition.System Processor Event := ⟨step ist entry⟩

/-- The boot code is the main task, and the idle task has its first context. -/
def init (core : Core) (ctx : Nat → BitVec 64) (mainCtx : Regs) (stackEnd f : BitVec 64) : Processor :=
  let id := BitVec.ofNat 64 kIdleTask
  { core := { core with mem := initContext core.mem (ctx kIdleTask) core.regs.cr3 stackEnd f id 0 }
    cpu := .init mainCtx (initRegs core.regs.cr3 stackEnd f id 0) core.regs
    ctx }

/-! ## The memory holds the contexts -/

/-- The registers are those of the executing task, and every other task has its registers in memory. -/
structure Inv (s : Processor) : Prop where
  cpu : s.cpu.Inv
  regs : s.core.regs = s.cpu.regs
  apart : ∀ t ∈ s.cpu.tm.tasks, ∀ u ∈ s.cpu.tm.tasks, t ≠ u → Apart (s.ctx t) (s.ctx u)
  holds : ∀ t ∈ s.cpu.tm.tasks, t ≠ s.cpu.executing →
    TaskContext.Holds s.core.mem (s.ctx t) (s.cpu.tm.task t).context

variable {ist entry} {s s' : Processor}

theorem Inv.init {core : Core} {ctx : Nat → BitVec 64} {mainCtx : Regs} {stackEnd f : BitVec 64}
    (h : Apart (ctx 1) (ctx kIdleTask)) : Inv (init core ctx mainCtx stackEnd f) where
  cpu := .init ..
  regs := rfl
  apart := fun t ht u hu hne => by
    obtain rfl | rfl : t = 1 ∨ t = 2 := by simpa using (show t ∈ [1, 2] from ht)
    · obtain rfl : u = 2 := by simpa [hne.symm] using (show u ∈ [1, 2] from hu)
      exact h
    · obtain rfl : u = 1 := by simpa [hne.symm] using (show u ∈ [1, 2] from hu)
      exact h.symm
  holds := fun t ht hne => by
    obtain rfl : t = 2 := by
      have hne : t ≠ 1 := hne
      simpa [hne] using (show t ∈ [1, 2] from ht)
    have hholds := @holds_initContext core.mem (ctx kIdleTask) core.regs.cr3 stackEnd f
      (BitVec.ofNat 64 kIdleTask) 0
    rw [← Cpu.context_init mainCtx (initRegs core.regs.cr3 stackEnd f _ 0) core.regs] at hholds
    exact hholds

/-- What lies apart from a context is not written when the registers are saved to it. -/
theorem agreeOn_saveContext {core : Core} {a : BitVec 64}
    (hclear : ClearOf (core.reg .rsp + 8) 16 (core.reg .rsi) size) (hstack : ClearOf (core.reg .rsp) 8 a size)
    (hapart : Apart a (core.reg .rsi)) : AgreeOn core.mem (core.run saveContext).mem a size := by
  intro i hi
  obtain ⟨hwords, hfx, -⟩ := outside_context (hapart.le_sub hi)
  have hbelow := hstack i hi
  have hpush : 8 ≤ (a + BitVec.ofNat 64 i - (core.reg .rsp - 8)).toNat := by
    generalize core.reg .rsp = sp at *
    clear hclear hstack hapart hwords hfx
    bv_omega
  rw [mem_saveContext hclear, write_of_le hfx, storeAll_apply index_lt hwords]
  exact ((write_of_le hpush).trans (storeAll_apply index_lt hwords)).symm

/-- The context that `RestoreContext` is called with is taken into use, and the contexts stay. -/
theorem Inv.restored (H : Inv s) {r : Regs} {cpu' : Cpu Regs} (hinv : cpu'.Inv)
    (hmoves : { s.cpu with regs := r }.Moves cpu') (hne : cpu'.executing ≠ s.cpu.executing) {core : Core}
    (hrdi : core.reg .rdi = s.ctx cpu'.executing) (hclear : s.StackClear (core.reg .rsp) 40)
    (hother : ∀ t ∈ s.cpu.tm.tasks, t ≠ s.cpu.executing →
      TaskContext.Holds core.mem (s.ctx t) (s.cpu.tm.task t).context)
    (hself : s.cpu.executing ∈ cpu'.tm.tasks → TaskContext.Holds core.mem (s.ctx s.cpu.executing) r) :
    Inv { s with core := core.run restoreContext, cpu := cpu' } where
  cpu := hinv
  regs := by
    have hmem := hmoves.owned _ hinv.sched.executing_mem
    have hholds := hother _ hmem hne
    have hout := hclear _ hmem
    rw [← hrdi] at hholds hout
    exact (run_restoreContext hholds hout).trans (hmoves.loads hne).symm
  apart := fun t ht u hu => H.apart t (hmoves.owned t ht) u (hmoves.owned u hu)
  holds := fun t ht _ => by
    have hmem := hmoves.owned t ht
    have hagree : AgreeOn core.mem (core.run restoreContext).mem (s.ctx t) size := fun i hi =>
      (agreeOn_restoreContext (hclear t hmem) i hi).symm
    by_cases hself' : t = s.cpu.executing
    · subst hself'
      rw [show (cpu'.tm.task s.cpu.executing).context = r from hmoves.saves hne ht]
      exact (hself ht).congr hagree
    · rw [show (cpu'.tm.task t).context = (s.cpu.tm.task t).context from hmoves.frame t hself']
      exact (hother t hmem hself').congr hagree

/-- The contexts of other tasks stay when a task gets its first one. -/
theorem agreeOn_initContext {m : X86.Memory} {a addr cr3 stackEnd f id data : BitVec 64} (h : Apart a addr) :
    AgreeOn m (initContext m addr cr3 stackEnd f id data) a size := by
  intro i hi
  have hout := h.le_sub hi
  obtain ⟨hwords, -, hfx⟩ := outside_context hout
  rw [initContext, write_of_le hfx, storeAll_apply index_lt hwords, write_of_le hout]

theorem Inv.newTask (H : Inv s) {addr stackEnd f data : BitVec 64} {r : Regs} {cpu' : Cpu Regs}
    (hcpu : s.cpu.step (.newTask r) = some cpu')
    (hr : r = initRegs s.core.regs.cr3 stackEnd f (BitVec.ofNat 64 (s.cpu.tm.latestId + 1)) data)
    (h : ∀ t ∈ s.cpu.tm.tasks, Apart (s.ctx t) addr) :
    Inv {
      core := { s.core with
        mem := initContext s.core.mem addr s.core.regs.cr3 stackEnd f
          (BitVec.ofNat 64 (s.cpu.tm.latestId + 1)) data }
      cpu := cpu'
      ctx := Function.update s.ctx (s.cpu.tm.latestId + 1) addr } := by
  have hinv := H.cpu.step hcpu
  cases hcpu
  have hold : ∀ t ∈ s.cpu.tm.tasks, t ≠ s.cpu.tm.latestId + 1 := fun t ht heq => by
    have := H.cpu.sched.id_le t ht
    omega
  have hcases : ∀ t ∈ s.cpu.tm.tasks ++ [s.cpu.tm.latestId + 1], t ≠ s.cpu.tm.latestId + 1 → t ∈ s.cpu.tm.tasks :=
    fun t ht hne => by simpa [hne] using ht
  refine ⟨hinv, H.regs, fun t ht u hu hne => ?_, fun t ht hne => ?_⟩
  · change Apart (Function.update s.ctx (s.cpu.tm.latestId + 1) addr t)
      (Function.update s.ctx (s.cpu.tm.latestId + 1) addr u)
    by_cases htn : t = s.cpu.tm.latestId + 1
    · have hun : u ≠ s.cpu.tm.latestId + 1 := fun h => hne (htn.trans h.symm)
      rw [htn, Function.update_self, Function.update_of_ne hun]
      exact (h u (hcases u hu hun)).symm
    · rw [Function.update_of_ne htn]
      by_cases hun : u = s.cpu.tm.latestId + 1
      · rw [hun, Function.update_self]
        exact h t (hcases t ht htn)
      · rw [Function.update_of_ne hun]
        exact H.apart t (hcases t ht htn) u (hcases u hu hun) hne
  · change TaskContext.Holds (initContext s.core.mem addr s.core.regs.cr3 stackEnd f
      (BitVec.ofNat 64 (s.cpu.tm.latestId + 1)) data) (Function.update s.ctx (s.cpu.tm.latestId + 1) addr t)
      (Function.update s.cpu.tm.task (s.cpu.tm.latestId + 1) { context := r } t).context
    by_cases htn : t = s.cpu.tm.latestId + 1
    · rw [htn, Function.update_self, Function.update_self, hr]
      exact holds_initContext
    · rw [Function.update_of_ne htn, Function.update_of_ne htn]
      exact (H.holds t (hcases t ht htn) hne).congr (agreeOn_initContext (h t (hcases t ht htn)))

theorem isKernelCall_of_usesSwitchContext {e : Cpu.Event Regs} (h : UsesSwitchContext e = true) :
    Cpu.IsKernelCall e = true := by
  cases e with
  | run regs => cases h
  | newTask context => cases h
  | switchTask => cases h
  | finish exitCode => cases h
  | wakeup task level | sendMessage id msg | sleep task | waitFinish id | waitLoop => rfl

/-- A call without a switch, during which the code of the executing task goes on. -/
theorem Inv.stays (H : Inv s) {r : Regs} {cpu' : Cpu Regs} (hinv : cpu'.Inv)
    (hmoves : { s.cpu with regs := r }.Moves cpu') (hsame : cpu'.executing = s.cpu.executing) {core : Core}
    (hm : ∀ t ∈ s.cpu.tm.tasks, t ≠ s.cpu.executing → AgreeOn s.core.mem core.mem (s.ctx t) size) :
    Inv { s with core, cpu := { cpu' with regs := core.regs } } where
  cpu := hinv.step (show cpu'.step (.run core.regs) = some _ from rfl)
  regs := rfl
  apart := fun t ht u hu => H.apart t (hmoves.owned t ht) u (hmoves.owned u hu)
  holds := fun t ht hne => by
    have hne' : t ≠ s.cpu.executing := fun h => hne (h.trans hsame.symm)
    have hmem := hmoves.owned t ht
    rw [show (cpu'.tm.task t).context = (s.cpu.tm.task t).context from hmoves.frame t hne']
    exact (H.holds t hmem hne').congr (hm t hmem hne')

theorem Inv.call (H : Inv s) {cpu' : Cpu Regs} (hinv : cpu'.Inv)
    (hmoves : { s.cpu with regs := returned s.core }.Moves cpu') :
    (cpu'.executing = s.cpu.executing → Inv { s with cpu := { cpu' with regs := s.core.regs } }) ∧
      (cpu'.executing ≠ s.cpu.executing → s.core.reg .rdi = s.ctx cpu'.executing →
        s.core.reg .rsi = s.ctx s.cpu.executing → s.StackClear (s.core.reg .rsp + 8) 48 →
        Inv { s with core := s.core.run switchContext, cpu := cpu' }) := by
  refine ⟨fun hsame => H.stays hinv hmoves hsame (fun _ _ _ _ _ => rfl), fun hne hrdi hrsi hclear => ?_⟩
  have hexecuting := H.cpu.sched.executing_mem
  have hself : ClearOf (s.core.reg .rsp + 8) 16 (s.core.reg .rsi) size := fun i hi => by
    have := hclear _ hexecuting i hi
    rw [hrsi]
    exact (show 16 ≤ 48 by decide).trans this
  have hsave := holds_saveContext hself
  rw [hrsi] at hsave
  rw [switchContext, Core.run_append]
  refine H.restored hinv hmoves hne (show (s.core.run saveContext).reg .rdi = _ from hrdi) (fun t ht i hi => ?_)
    (fun t ht htne => ?_) fun _ => hsave
  · have := hclear t ht i hi
    rw [reg_rsp_saveContext]
    bv_omega
  · have hstack : ClearOf (s.core.reg .rsp) 8 (s.ctx t) size := fun i hi => by
      have := hclear t ht i hi
      bv_omega
    have hapart := H.apart t ht _ hexecuting htne
    rw [← hrsi] at hapart
    exact (H.holds t ht htne).congr (agreeOn_saveContext hself hstack hapart)

theorem Inv.finish (H : Inv s) {exitCode : Int} {cpu' : Cpu Regs} (hcpu : s.cpu.step (.finish exitCode) = some cpu')
    (hrdi : s.core.reg .rdi = s.ctx cpu'.executing) (hclear : s.StackClear (s.core.reg .rsp) 40) :
    Inv { s with core := s.core.run restoreContext, cpu := cpu' } := by
  have hinv := H.cpu.step hcpu
  have hmoves := Cpu.moves_of_step H.cpu hcpu rfl
  have hgone : s.cpu.executing ∉ cpu'.tm.tasks := by
    obtain ⟨⟨hidle, hnot⟩, rfl⟩ := by
      simpa only [Cpu.step, Option.ite_none_right_eq_some, Option.some.injEq] using hcpu
    have hspec := Cpu.finish_spec H.cpu.sched hidle (fun w => H.cpu.waiter_mem (by simpa using hnot)) exitCode
    rw [hspec.2.2.2.1]
    exact H.cpu.sched.tasks_nodup.not_mem_erase
  have hne : cpu'.executing ≠ s.cpu.executing := fun h => hgone (h ▸ hinv.sched.executing_mem)
  exact H.restored hinv (r := s.cpu.regs) hmoves hne hrdi hclear H.holds fun h => absurd h hgone

/-- When the registers are saved, the contexts of the other tasks stay, and on a timeout that of the executing task
holds its registers. -/
theorem Inv.saved (H : Inv s) (hstack : s.StackClear (aligned ist) 752) (timeout : Bool) :
    (∀ t ∈ s.cpu.tm.tasks, t ≠ s.cpu.executing →
      AgreeOn s.core.mem (savedMemory ist entry s timeout) (s.ctx t) size) ∧
    (timeout = true → TaskContext.Holds (savedMemory ist entry s timeout) (s.ctx s.cpu.executing) s.core.regs) := by
  have hcall : ∀ t ∈ s.cpu.tm.tasks, AgreeOn s.core.mem (timerCall ist entry s.core).mem (s.ctx t) size :=
    fun t ht i hi => (mem_intHandler (hstack t ht i hi)).symm
  cases timeout with
  | false => exact ⟨fun t ht _ => hcall t ht, fun h => absurd h Bool.false_ne_true⟩
  | true =>
    have hcopy : savedMemory ist entry s true = (timerCall ist entry s.core).mem.copy (s.ctx s.cpu.executing)
        ((timerCall ist entry s.core).reg .rdi) size := by
      rw [savedMemory, H.cpu.sched.currentTask_eq]
      rfl
    have hholds : TaskContext.Holds (timerCall ist entry s.core).mem ((timerCall ist entry s.core).reg .rdi)
        s.core.regs := holds_intHandler s.core
    rw [hcopy]
    refine ⟨fun t ht hne i hi => (hcall t ht i hi).trans (write_of_le ?_).symm, fun _ => hholds.copy⟩
    exact (H.apart t ht _ H.cpu.sched.executing_mem hne).le_sub hi

theorem Inv.timer (H : Inv s) {timeout : Bool} {out : Core} {cpu' : Cpu Regs} (hinv : cpu'.Inv)
    (hmoves : { s.cpu with regs := s.core.regs }.Moves cpu') (hnone : timeout = false → cpu' = s.cpu)
    (hstack : s.StackClear (aligned ist) 752) (hkept : s.ContextsKept (savedMemory ist entry s timeout) out.mem) :
    (cpu'.executing = s.cpu.executing →
      AgreeOn (timerCall ist entry s.core).mem out.mem (aligned ist - 752) 752 →
      Inv { s with
        core := ((timerCall ist entry s.core).call (fun _ => false) out).runCalls handlerExit
        cpu := { cpu' with regs := s.core.regs } }) ∧
    (cpu'.executing ≠ s.cpu.executing → out.reg .rdi = s.ctx cpu'.executing → s.StackClear (out.reg .rsp) 40 →
      Inv { s with core := out.run restoreContext, cpu := cpu' }) := by
  obtain ⟨hother, hself⟩ := @Inv.saved ist entry s H hstack timeout
  have hagree : ∀ t ∈ s.cpu.tm.tasks, t ≠ s.cpu.executing → AgreeOn s.core.mem out.mem (s.ctx t) size :=
    fun t ht hne i hi => (hother t ht hne i hi).trans (hkept t ht i hi)
  refine ⟨fun hsame hframe => ?_, fun hne hrdi hclear => ?_⟩
  · have hreturn : (((timerCall ist entry s.core).call (fun _ => false) out).runCalls handlerExit) =
        ⟨s.core.regs, out.mem⟩ := timer_returns rfl hframe
    rw [hreturn]
    exact H.stays hinv hmoves hsame hagree
  · refine H.restored hinv hmoves hne hrdi hclear (fun t ht htne => (H.holds t ht htne).congr (hagree t ht htne))
      fun hmem => ?_
    have htimeout : timeout = true :=
      (Bool.eq_false_or_eq_true timeout).resolve_right fun h => hne (by rw [hnone h])
    exact (hself htimeout).congr (hkept _ H.cpu.sched.executing_mem)

/-! ## Runs -/

/-- The registers that the executing task has when it gives up the processor. -/
def leftWith (s : Processor) : Event → Regs
  | .call _ => returned s.core
  | _ => s.core.regs

/-- What a step means for the tasks. -/
structure Follows (s : Processor) (e : Event) (s' : Processor) : Prop where
  stays : ∀ u ∈ s.cpu.tm.tasks, u ≠ s.cpu.executing →
    u ∈ s'.cpu.tm.tasks ∧ (s'.cpu.tm.task u).context = (s.cpu.tm.task u).context
  loads : s'.cpu.executing ≠ s.cpu.executing → s'.cpu.regs = (s.cpu.tm.task s'.cpu.executing).context
  saves : s'.cpu.executing ≠ s.cpu.executing → s.cpu.executing ∈ s'.cpu.tm.tasks →
    (s'.cpu.tm.task s.cpu.executing).context = leftWith s e

theorem Follows.of_moves {e : Event} {r : Regs} {cpu' : Cpu Regs} (h : { s.cpu with regs := r }.Moves cpu')
    (hr : r = leftWith s e)
    (hs : s'.cpu = cpu' ∨ cpu'.executing = s.cpu.executing ∧ ∃ r', s'.cpu = { cpu' with regs := r' }) :
    Follows s e s' where
  stays := fun u hu hne => by
    obtain hs | ⟨-, r', hs⟩ := hs
    all_goals
      rw [hs]
      exact ⟨h.stays u hu hne, h.frame u hne⟩
  loads := fun hne => by
    obtain hs | ⟨hsame, r', hs⟩ := hs
    · rw [hs] at hne ⊢
      exact h.loads hne
    · rw [hs] at hne
      exact absurd hsame hne
  saves := fun hne hmem => by
    obtain hs | ⟨hsame, r', hs⟩ := hs
    · rw [hs] at hne hmem ⊢
      exact (h.saves hne hmem).trans hr
    · rw [hs] at hne
      exact absurd hsame hne

theorem step_spec (H : Inv s) {e : Event} (h : step ist entry s e = some s') : Inv s' ∧ Follows s e s' := by
  have hregs : { s.cpu with regs := s.core.regs } = s.cpu := by rw [H.regs]
  have hsame : ∀ r, { s.cpu with regs := r }.Moves s.cpu := fun r => .of_context rfl rfl rfl fun _ => rfl
  cases e with
  | run core =>
    obtain ⟨hkept, h⟩ := Option.ite_none_right_eq_some.mp h
    cases h
    refine ⟨?_, .of_moves (hsame s.core.regs) rfl (.inr ⟨rfl, _, rfl⟩)⟩
    exact H.stays H.cpu (hsame s.core.regs) rfl fun t ht _ => hkept t ht
  | newTask addr stackEnd f data =>
    obtain ⟨hapart, h⟩ := Option.ite_none_right_eq_some.mp h
    obtain ⟨cpu', hcpu, rfl⟩ := Option.map_eq_some_iff.mp h
    refine ⟨H.newTask hcpu rfl hapart, ?_⟩
    cases hcpu
    refine ⟨fun u hu _ => ⟨List.mem_append_left _ hu, ?_⟩, fun hne => absurd rfl hne, fun hne => absurd rfl hne⟩
    have hid : u ≠ s.cpu.tm.latestId + 1 := fun heq => by
      have := H.cpu.sched.id_le u hu
      omega
    simp [TaskManager.newTask, TaskManager.setTask, hid]
  | call e =>
    obtain ⟨huses, h⟩ := Option.ite_none_right_eq_some.mp h
    obtain ⟨cpu', hcpu, h⟩ := Option.bind_eq_some_iff.mp h
    have hrun : Cpu.Inv { s.cpu with regs := returned s.core } :=
      H.cpu.step (show s.cpu.step (.run (returned s.core)) = some _ from rfl)
    have hmoves := Cpu.moves_of_step hrun hcpu (isKernelCall_of_usesSwitchContext huses)
    obtain ⟨hstays, hswitch⟩ := H.call (hrun.step hcpu) hmoves
    by_cases hexecuting : cpu'.executing = s.cpu.executing
    · rw [if_pos hexecuting] at h
      cases h
      exact ⟨hstays hexecuting, .of_moves hmoves rfl (.inr ⟨hexecuting, _, rfl⟩)⟩
    · rw [if_neg hexecuting] at h
      obtain ⟨⟨hrdi, hrsi, hclear⟩, h⟩ := Option.ite_none_right_eq_some.mp h
      cases h
      exact ⟨hswitch hexecuting hrdi hrsi hclear, .of_moves hmoves rfl (.inl rfl)⟩
  | finish exitCode =>
    obtain ⟨cpu', hcpu, h⟩ := Option.bind_eq_some_iff.mp h
    obtain ⟨⟨hrdi, hclear⟩, h⟩ := Option.ite_none_right_eq_some.mp h
    cases h
    have hmoves := Cpu.moves_of_step H.cpu hcpu rfl
    rw [← hregs] at hmoves
    exact ⟨H.finish hcpu hrdi hclear, .of_moves hmoves rfl (.inl rfl)⟩
  | timer timeout out =>
    obtain ⟨⟨hstack, hkept⟩, h⟩ := Option.ite_none_right_eq_some.mp h
    obtain ⟨cpu', hcpu, h⟩ := Option.bind_eq_some_iff.mp h
    obtain ⟨hinv, hmoves, hnone⟩ : cpu'.Inv ∧ { s.cpu with regs := s.core.regs }.Moves cpu' ∧
        (timeout = false → cpu' = s.cpu) := by
      cases timeout with
      | false =>
        cases hcpu
        exact ⟨H.cpu, hsame _, fun _ => rfl⟩
      | true =>
        rw [if_pos rfl] at hcpu
        rw [hregs]
        exact ⟨H.cpu.step hcpu, Cpu.moves_of_step H.cpu hcpu rfl, fun h => absurd h.symm Bool.false_ne_true⟩
    obtain ⟨hstays, hswitch⟩ := H.timer hinv hmoves hnone hstack hkept
    by_cases hexecuting : cpu'.executing = s.cpu.executing
    · rw [if_pos hexecuting] at h
      obtain ⟨hframe, h⟩ := Option.ite_none_right_eq_some.mp h
      cases h
      exact ⟨hstays hexecuting hframe, .of_moves hmoves rfl (.inr ⟨hexecuting, _, rfl⟩)⟩
    · rw [if_neg hexecuting] at h
      obtain ⟨⟨hrdi, hclear⟩, h⟩ := Option.ite_none_right_eq_some.mp h
      cases h
      exact ⟨hswitch hexecuting hrdi hclear, .of_moves hmoves rfl (.inl rfl)⟩

theorem Inv.reachable {core : Core} {ctx : Nat → BitVec 64} {mainCtx : Regs} {stackEnd f : BitVec 64}
    (hapart : Apart (ctx 1) (ctx kIdleTask))
    (h : (system ist entry).Reachable (Processor.init core ctx mainCtx stackEnd f) s) : Inv s :=
  h.invariant (fun _ _ _ H hs => (step_spec H hs).1) (.init hapart)

/-- While a task does not execute, its context stays. -/
theorem context_away {t : Nat} {es : List Event} {s₁ s₂ : Processor} (hrun : (system ist entry).Run s₁ es s₂)
    (H : Inv s₁) (ht : t ∈ s₁.cpu.tm.tasks)
    (haway : (system ist entry).Throughout (fun s => s.cpu.executing ≠ t) s₁ es) :
    Inv s₂ ∧ (s₂.cpu.tm.task t).context = (s₁.cpu.tm.task t).context := by
  induction hrun with
  | nil => exact ⟨H, rfl⟩
  | cons hs _ ih =>
    obtain ⟨H', hfollows⟩ := step_spec H hs
    obtain ⟨hmem, hcontext⟩ := hfollows.stays t ht haway.head.symm
    obtain ⟨H₂, heq⟩ := ih H' hmem (haway.tail hs)
    exact ⟨H₂, heq.trans hcontext⟩

theorem step_newTask {addr stackEnd f data : BitVec 64} (h : ∀ t ∈ s.cpu.tm.tasks, Apart (s.ctx t) addr) :
    ∃ s', step ist entry s (.newTask addr stackEnd f data) = some s' ∧
      s'.ctx = Function.update s.ctx (s.cpu.tm.latestId + 1) addr ∧
      s'.cpu = { s.cpu with tm := s.cpu.tm.newTask (initRegs s.core.regs.cr3 stackEnd f
        (BitVec.ofNat 64 (s.cpu.tm.latestId + 1)) data) } ∧ s'.core.regs = s.core.regs :=
  ⟨_, (if_pos h).trans rfl, rfl, rfl, rfl⟩

theorem step_wakeup {t : Nat} {level : Int} (h : t ∈ s.cpu.tm.tasks ∧ -1 ≤ level ∧ level ≤ kMaxLevel) :
    step ist entry s (.call (.wakeup t level)) =
      some { s with cpu := { s.cpu with tm := s.cpu.tm.wakeup t level, regs := s.core.regs } } := by
  have hcpu : ({ s.cpu with regs := returned s.core } : Cpu Regs).step (.wakeup t level) =
      some { s.cpu with tm := s.cpu.tm.wakeup t level, regs := returned s.core } := if_pos h
  have huses : UsesSwitchContext (.wakeup t level) = true := rfl
  rw [step, if_pos huses, hcpu]
  exact if_pos rfl

theorem step_timeout {out : Core} (hstack : s.StackClear (aligned ist) 752)
    (hout : out.mem = savedMemory ist entry s true)
    (hne : (s.cpu.switchTask s.cpu.regs).executing ≠ s.cpu.executing)
    (hrdi : out.reg .rdi = s.ctx (s.cpu.switchTask s.cpu.regs).executing)
    (hclear : s.StackClear (out.reg .rsp) 40) :
    step ist entry s (.timer true out) =
      some { s with core := out.run restoreContext, cpu := s.cpu.switchTask s.cpu.regs } := by
  have hkept : s.ContextsKept (savedMemory ist entry s true) out.mem := by
    rw [hout]
    exact fun _ _ _ _ => rfl
  refine Option.ite_none_right_eq_some.mpr ⟨⟨hstack, hkept⟩, Option.bind_eq_some_iff.mpr ⟨_, rfl, ?_⟩⟩
  rw [if_neg hne, if_pos ⟨hrdi, hclear⟩]

end Processor

end MikanOS
